import SemiThue.Regex.Bracket
import SemiThue.Word

/-!
# SemiThue.Regex.Parse — reading regular expressions

Alternatives are divided by `|`, groups are put in parentheses, and `?`, `*`, `+` and counts in
braces repeat what stands before them, lazily if `?` follows, which makes no difference to a search.
`.` is any character but a line feed, and `^` and `$` are the ends of the text.  Flags such as
`(?m)` hold up to the end of their group.
-/

namespace SemiThue
namespace Regex

/-! ### Repetitions -/

/-- Reads a number, which may have white space around it, if there is one. -/
def decimal (c : Cursor) : Except Error Nat × Cursor :=
  let start := c.skip (c.rest.takeWhile Word.isBlank).length
  let numeral := start.rest.takeWhile Char.isDigit
  let stop := start.skip numeral.length
  let value := numeral.foldl (fun n d => 10 * n + (d.toNat - '0'.toNat)) 0
  let result :=
    if numeral.isEmpty then .error (.inPart .countEmpty start.offset stop.offset)
    else if value < UInt32.size then .ok value
    else .error (.inPart .decimalInvalid start.offset stop.offset)
  (result, stop.skip (stop.rest.takeWhile Word.isBlank).length)

def skipLazy (c : Cursor) : Cursor := if c.rest.head? = some '?' then c.skip 1 else c

/-- Reads the count in the braces that open at the cursor.  That the braces are not closed comes
before a fault in the least count, as long as the expression ends. -/
def count (c : Cursor) : Except Error ((Nat × Option Nat) × Cursor) :=
  let unclosed (after : Cursor) : Error := .inPart .countUnclosed c.offset after.offset
  let closed (least : Nat) (most : Option Nat) (after : Cursor) :
      Except Error ((Nat × Option Nat) × Cursor) :=
    if after.rest.head? = some '\x7d' then
      let last := skipLazy (after.skip 1)
      if most.any (· < least) then .error (.inPart .countInvalid c.offset last.offset)
      else .ok ((least, most), last)
    else .error (unclosed after)
  let (least, after) := decimal (c.skip 1)
  match after.rest with
  | [] => .error (unclosed after)
  | [','] => .error (unclosed (after.skip 1))
  | ',' :: '\x7d' :: _ => do closed (← least) none (after.skip 1)
  | ',' :: _ => do
    let least ← least
    let (most, after) := decimal (after.skip 1)
    closed least (some (← most)) after
  | _ => do
    let least ← least
    closed least (some least) after

/-! ### Groups -/

/-- A group that has been opened, with what was read before it. -/
structure Group where
  opening : Nat
  flags : Flags
  /-- The alternatives before the current one. -/
  alternatives : Option Regex
  /-- The parts of the current alternative, the latest first; flags are parts that cannot be
  repeated. -/
  parts : List (Option Regex)

structure State where
  flags : Flags := {}
  alternatives : Option Regex := none
  parts : List (Option Regex) := []
  outer : List Group := []
  /-- The names of groups and where they stand. -/
  names : List (Word × Span) := []

namespace State

def push (s : State) (r : Regex) : State := { s with parts := some r :: s.parts }

def body (s : State) : Regex :=
  let last := s.parts.foldl (fun r part => part.elim r (Regex.seq · r)) Regex.empty
  s.alternatives.elim last (Regex.alt · last)

def openGroup (s : State) (opening : Nat) (inner : Flags) : State :=
  { s with
    flags := inner, alternatives := none, parts := []
    outer :=
      { opening, flags := s.flags, alternatives := s.alternatives, parts := s.parts } :: s.outer }

def canRepeat (s : State) : Bool := (s.parts.head?.bind id).isSome

def repeatLast (s : State) (offset : Nat) (least : Nat) (most : Option Nat) : Except Error State :=
  match s.parts with
  | some r :: parts => .ok { s with parts := some (.repeated r least most) :: parts }
  | _ => .error (.inPart .nothingToRepeat offset offset)

end State

/-- Raises or clears the flag with the given letter. -/
def setFlag? (flags : Flags) (value : Bool) : Char → Option Flags
  | 'i' => some { flags with ignoreCase := value }
  | 'm' => some { flags with multiLine := value }
  | 's' => some { flags with dotAll := value }
  | 'x' => some { flags with extended := value }
  | 'u' => some { flags with unicode := value }
  | 'U' | 'R' => some flags
  | _ => none

/-- Reads flags up to a colon or a closing parenthesis, and tells whether there were any.  `seen`
holds the letters before, and the hyphen that clears the flags after it, with their offsets. -/
def readFlags : Nat → List (Char × Nat) → Flags → Cursor → Except Error ((Bool × Flags) × Cursor)
  | 0, _, _, c => .error (.inPart .flagUnfinished c.offset c.offset)
  | fuel + 1, seen, flags, c =>
    let here : Span := { start := c.offset, stop := c.offset + 1 }
    let again (fault : Fault) (earlier : Nat) : Except Error ((Bool × Flags) × Cursor) :=
      .error (.located fault [{ start := earlier, stop := earlier + 1 }, here])
    let next (letter : Char) (flags : Flags) :=
      readFlags fuel ((letter, c.offset) :: seen) flags (c.skip 1)
    match c.rest, seen with
    | [], _ => .error (.inPart .flagUnfinished c.offset c.offset)
    | ':' :: _, ('-', dangling) :: _ =>
      .error (.inPart .flagDanglingNegation dangling (dangling + 1))
    | ')' :: _, ('-', dangling) :: _ =>
      .error (.inPart .flagDanglingNegation dangling (dangling + 1))
    | ':' :: _, _ => .ok ((!seen.isEmpty, flags), c)
    | ')' :: _, _ => .ok ((!seen.isEmpty, flags), c)
    | '-' :: _, _ => (seen.lookup '-').elim (next '-' flags) (again .flagRepeatedNegation)
    | letter :: _, _ =>
      match setFlag? flags (seen.lookup '-').isNone letter with
      | none => .error (.located .flagUnknown [here])
      | some flags => (seen.lookup letter).elim (next letter flags) (again .flagDuplicate)

/-- Reads the name of a group, up to the closing angle bracket. -/
def groupName (names : List (Word × Span)) (c : Cursor) : Except Error ((Word × Span) × Cursor) :=
  let name := c.rest.takeWhile (· ≠ '>')
  let stop := c.offset + name.length
  let span : Span := { start := c.offset, stop }
  let isNameChar (first : Bool) (d : Char) : Bool :=
    d = '_' || d.isAlpha || (!first && (d.isDigit || d = '.' || d = '[' || d = ']'))
  match name.zipIdx.find? fun (d, i) => !isNameChar (i = 0) d with
  | some (_, i) => .error (.inPart .groupNameInvalid (c.offset + i) (c.offset + i + 1))
  | none =>
    if name.length = c.rest.length then .error (.inPart .groupNameUnfinished stop stop)
    else if name.isEmpty then .error (.inPart .groupNameEmpty c.offset c.offset)
    else
      match names.lookup name with
      | some earlier => .error (.located .groupNameDuplicate [earlier, span])
      | none => .ok ((name, span), c.skip (name.length + 1))

/-- Opens the group at the cursor, or sets flags for the rest of the current one. -/
def openParenthesis (s : State) (c : Cursor) : Except Error (State × Cursor) :=
  let look (width : Nat) : Except Error (State × Cursor) :=
    .error (.inPart .lookAround c.offset (c.offset + width))
  let name (width : Nat) : Except Error (State × Cursor) := do
    let (entry, after) ← groupName s.names (c.skip width)
    return ({ s.openGroup c.offset s.flags with names := entry :: s.names }, after)
  match c.rest.drop 1 with
  | '?' :: '=' :: _ => look 3
  | '?' :: '!' :: _ => look 3
  | '?' :: '<' :: '=' :: _ => look 4
  | '?' :: '<' :: '!' :: _ => look 4
  | '?' :: 'P' :: '<' :: _ => name 4
  | '?' :: '<' :: _ => name 3
  | ['?'] => .error (.inPart .groupUnclosed c.offset (c.offset + 1))
  | '?' :: rest => do
    let ((any, flags), after) ← readFlags (rest.length + 1) [] s.flags (c.skip 2)
    if after.rest.head? = some ':' then return (s.openGroup c.offset flags, after.skip 1)
    else if any then return ({ s with flags, parts := none :: s.parts }, after.skip 1)
    else .error (.inPart .nothingToRepeat (c.offset + 1) (c.offset + 1))
  | _ => .ok (s.openGroup c.offset s.flags, c.skip 1)

def closeParenthesis (s : State) (c : Cursor) : Except Error (State × Cursor) :=
  match s.outer with
  | [] => .error (.inPart .groupUnopened c.offset (c.offset + 1))
  | g :: outer =>
    let parts := some s.body :: g.parts
    .ok ({ s with flags := g.flags, alternatives := g.alternatives, parts, outer }, c.skip 1)

/-! ### Expressions -/

def State.pushChar (s : State) (start : Nat) (d : Char) (after : Cursor) : State × Cursor :=
  (s.push (.one (.range d d s.flags.ignoreCase)),
    after.object start .caseUnknown (s.flags.unicode && s.flags.ignoreCase))

/-- Reads the part of an expression that begins with the given character at the cursor. -/
def readPart (s : State) (c : Cursor) (first : Char) : Except Error (State × Cursor) :=
  match first with
  | '(' => openParenthesis s c
  | ')' => closeParenthesis s c
  | '|' => .ok ({ s with alternatives := some s.body, parts := [] }, c.skip 1)
  | '[' => (bracketed s.flags c).map fun (set, after) => (s.push (.one set), after)
  | '?' => do return (← s.repeatLast c.offset 0 (some 1), skipLazy (c.skip 1))
  | '*' => do return (← s.repeatLast c.offset 0 none, skipLazy (c.skip 1))
  | '+' => do return (← s.repeatLast c.offset 1 none, skipLazy (c.skip 1))
  | '\x7b' => do
    if s.canRepeat then
      let ((least, most), after) ← count c
      return (← s.repeatLast c.offset least most, after)
    else .error (.inPart .nothingToRepeat c.offset c.offset)
  | '\\' => do
    let (e, after) ← escape s.flags c
    match e with
    | .char d => return s.pushChar c.offset d after
    | .set set => return (s.push (.one set), after)
    | .anchor a => return (s.push (.anchor a), after)
  | '.' =>
    let set := if s.flags.dotAll then .compl .empty else .compl (.range '\n' '\n' false)
    .ok (s.push (.one set), (c.skip 1).object c.offset .notText (!s.flags.unicode))
  | '^' => .ok (s.push (.anchor (if s.flags.multiLine then .lineStart else .textStart)), c.skip 1)
  | '$' => .ok (s.push (.anchor (if s.flags.multiLine then .lineEnd else .textEnd)), c.skip 1)
  | d =>
    if s.flags.extended && Word.isBlank d then .ok (s, c.skip 1)
    else if s.flags.extended && d = '#' then .ok (s, c.skip (c.rest.takeWhile (· ≠ '\n')).length)
    else .ok (s.pushChar c.offset d (c.skip 1))

/-- Reads parts up to the end of the expression.  Each of them takes a character at least. -/
def readParts : Nat → State → Cursor → Except Error Regex
  | 0, s, c => c.settle s.body
  | fuel + 1, s, c =>
    match c.rest, s.outer with
    | [], [] => c.settle s.body
    | [], g :: _ => .error (.inPart .groupUnclosed g.opening (g.opening + 1))
    | first :: _, _ =>
      match readPart s c first with
      | .error e => .error e
      | .ok (s, c) => readParts fuel s c

def parse (source : Word) : Except Error Regex :=
  readParts (source.length + 1) {} { rest := source }

end Regex
end SemiThue
