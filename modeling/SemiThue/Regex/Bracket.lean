import SemiThue.Regex.Escape

/-!
# SemiThue.Regex.Bracket — sets of characters in brackets

A set in brackets holds characters, ranges, escapes, named sets such as `[:alpha:]` and further
sets, and joins what it holds by `&&`, `--` and `~~`, from left to right.  A closing bracket at its
beginning and a hyphen at either end stand for themselves.
-/

namespace SemiThue
namespace Regex

/-! ### Named sets -/

/-- The set with a name such as `alpha`, which stands between colons. -/
def named? (name : String) : Option (List (Char × Char)) :=
  match name with
  | "alnum" => some [('0', '9'), ('A', 'Z'), ('a', 'z')]
  | "alpha" => some [('A', 'Z'), ('a', 'z')]
  | "ascii" => some [('\x00', '\x7f')]
  | "blank" => some [('\t', '\t'), (' ', ' ')]
  | "cntrl" => some [('\x00', '\x1f'), ('\x7f', '\x7f')]
  | "digit" => some [('0', '9')]
  | "graph" => some [('!', '~')]
  | "lower" => some [('a', 'z')]
  | "print" => some [(' ', '~')]
  | "punct" => some [('!', '/'), (':', '@'), ('[', '\x60'), ('\x7b', '~')]
  | "space" => some [('\t', '\r'), (' ', ' ')]
  | "upper" => some [('A', 'Z')]
  | "word" => some [('0', '9'), ('A', 'Z'), ('_', '_'), ('a', 'z')]
  | "xdigit" => some [('0', '9'), ('A', 'F'), ('a', 'f')]
  | _ => none

/-- Objects to a set that has been read since an offset: to the case of its letters, or to its
complement. -/
def objectSet (flags : Flags) (negated : Bool) (start : Nat) (c : Cursor) : Cursor :=
  (c.object start .caseUnknown (flags.unicode && flags.ignoreCase)).object start .notText
    (!flags.unicode && negated)

/-- Reads a named set such as `[:alpha:]` or `[:^alpha:]`. -/
def namedSet? (flags : Flags) (c : Cursor) : Option (CharSet × Cursor) :=
  match c.rest with
  | '[' :: ':' :: rest =>
    let negated := rest.head? = some '^'
    let rest := if negated then rest.drop 1 else rest
    let name := rest.takeWhile (· ≠ ':')
    match rest.drop name.length, named? (String.ofList name) with
    | ':' :: ']' :: _, some ranges =>
      let set := CharSet.ofRanges flags.ignoreCase ranges
      let after := c.skip (name.length + if negated then 5 else 4)
      some (if negated then .compl set else set, objectSet flags negated c.offset after)
    | _, _ => none
  | _ => none

/-! ### Members -/

/-- Reads one character of a set, or an escape. -/
def setItem (flags : Flags) (c : Cursor) : Except Error (Escaped × Cursor) :=
  match c.rest with
  | [] => .error (.inPart .classUnclosed c.offset c.offset)
  | '\\' :: _ => escape flags c
  | d :: _ => .ok (.char d, (c.skip 1).object c.offset .notByte (!flags.unicode && d.toNat ≥ 128))

/-- Reads a character, a range or an escape of a set with the given opening. -/
def setMember (flags : Flags) (opening : Span) (c : Cursor) : Except Error (CharSet × Cursor) := do
  let (low, after) ← setItem flags c
  let single : Except Error (CharSet × Cursor) :=
    match low with
    | .char d => .ok (.range d d flags.ignoreCase, after)
    | .set s => .ok (s, after)
    | .anchor _ => .error (.inPart .classEscapeInvalid c.offset after.offset)
  match after.rest with
  | [] => .error (.located .classUnclosed [opening])
  | ['-'] => .error (.located .classUnclosed [opening])
  | '-' :: ']' :: _ => single
  | '-' :: '-' :: _ => single
  | '-' :: _ =>
    let (high, last) ← setItem flags (after.skip 1)
    match low, high with
    | .char a, .char b =>
      if a ≤ b then return (.range a b flags.ignoreCase, last)
      else .error (.inPart .classRangeInvalid c.offset last.offset)
    | .char _, _ => .error (.inPart .classRangeLiteral (after.offset + 1) last.offset)
    | _, _ => .error (.inPart .classRangeLiteral c.offset after.offset)
  | _ => single

/-! ### Operations -/

inductive SetOperation where
  | inter
  | diff
  | symmDiff

namespace SetOperation

def ofWord? : Word → Option SetOperation
  | '&' :: '&' :: _ => some inter
  | '-' :: '-' :: _ => some diff
  | '~' :: '~' :: _ => some symmDiff
  | _ => none

def apply (a b : CharSet) : SetOperation → CharSet
  | inter => .inter a b
  | diff => .diff a b
  | symmDiff => .symmDiff a b

end SetOperation

/-! ### Brackets -/

/-- A set whose closing bracket has not been read yet. -/
structure OpenSet where
  /-- The opening bracket with what belongs to it. -/
  opening : Span
  negated : Bool
  /-- The operation that is to be done, and its left side. -/
  pending : Option (SetOperation × CharSet) := none
  /-- What has been read since. -/
  members : CharSet

namespace OpenSet

/-- Reads the opening bracket at the cursor with a negation, and a first closing bracket
or hyphens. -/
def read (c : Cursor) : Except Error (OpenSet × Cursor) :=
  let negated := (c.rest.drop 1).head? = some '^'
  let c' := c.skip (if negated then 2 else 1)
  let hyphens := (c'.rest.takeWhile (· = '-')).length
  let opened (members : CharSet) (after : Cursor) : Except Error (OpenSet × Cursor) :=
    .ok ({ opening := { start := c.offset, stop := after.offset }, negated, members }, after)
  let unclosed (stop : Nat) : Except Error (OpenSet × Cursor) :=
    .error (.inPart .classUnclosed c.offset stop)
  match hyphens, c'.rest with
  | 0, [] => unclosed c'.offset
  | 0, [']'] => unclosed (c'.offset + 1)
  | 0, ']' :: _ => opened (.range ']' ']' false) (c'.skip 1)
  | 0, _ => opened .empty c'
  | n, rest =>
    if rest.length = n then unclosed c.offset else opened (.range '-' '-' false) (c'.skip n)

def add (s : OpenSet) (more : CharSet) : OpenSet := { s with members := .union s.members more }

/-- What has been read, with the pending operation done. -/
def value (s : OpenSet) : CharSet :=
  s.pending.elim s.members fun (op, left) => op.apply left s.members

def operate (s : OpenSet) (op : SetOperation) : OpenSet :=
  { s with pending := some (op, s.value), members := .empty }

def close (s : OpenSet) : CharSet := if s.negated then .compl s.value else s.value

end OpenSet

/-- Reads the rest of a set that stands inside others, the innermost first.  Each turn takes a
character. -/
def setRest (flags : Flags) :
    Nat → OpenSet → List OpenSet → Cursor → Except Error (CharSet × Cursor)
  | 0, s, _, _ => .error (.located .classUnclosed [s.opening])
  | fuel + 1, s, outer, c =>
    match c.rest with
    | [] => .error (.located .classUnclosed [s.opening])
    | ']' :: _ =>
      let after := objectSet flags s.negated s.opening.start (c.skip 1)
      match outer with
      | [] => .ok (s.close, after)
      | o :: outer => setRest flags fuel (o.add s.close) outer after
    | '[' :: _ =>
      match namedSet? flags c with
      | some (set, after) => setRest flags fuel (s.add set) outer after
      | none =>
        match OpenSet.read c with
        | .error e => .error e
        | .ok (inner, after) => setRest flags fuel inner (s :: outer) after
    | rest =>
      match SetOperation.ofWord? rest with
      | some op => setRest flags fuel (s.operate op) outer (c.skip 2)
      | none =>
        match setMember flags s.opening c with
        | .error e => .error e
        | .ok (more, after) => setRest flags fuel (s.add more) outer after

def bracketed (flags : Flags) (c : Cursor) : Except Error (CharSet × Cursor) := do
  let (s, after) ← OpenSet.read c
  setRest flags (c.rest.length + 1) s [] after

end Regex
end SemiThue
