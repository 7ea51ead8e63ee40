import SemiThue.Declaration

/-!
# SemiThue.Script — programs as they are written

A script lists declarations in order and names the state that a run starts from.  Its text has one
line for each declaration, a line with the delimiter alone, and a line with the start state.

A text is read in three phases: declarations up to the first line that is just the delimiter, then
the start state, then nothing more.  Every line that is not blank yields a declaration, the start
state or an error, only the delimiter line that ends the declarations yields nothing.

* `Phase.accept` says what one line yields in a phase, and in which phase the next line is read.
* `Item.all` lists everything that a text yields.  Reading goes on after an error, with the next
  line.
* `Reader.next` yields the same items one at a time.
* `Script.parse` is the script of a text.  The first error among the items is the error of the whole
  text.
-/

namespace SemiThue

/-! ### Scripts -/

/-- Declarations in order, followed by the start state. -/
structure Script where
  rules : List Declaration
  start : Word
  deriving DecidableEq

namespace Script

/-- The text of a script, in which every line ends with a line feed. -/
def display (s : Script) : Word :=
  s.rules.flatMap (fun d => d.display ++ ['\n']) ++ delimiter ++ ['\n'] ++ s.start ++ ['\n']

/-- Changes every pattern, every text of an action and the start state. -/
def mapText (f : Word → Word) (s : Script) : Script :=
  { rules := s.rules.map (·.mapText f), start := f s.start }

/-- The script in which every word is replaced by the numeral of its length in bytes. -/
def lengths (s : Script) : Script := s.mapText fun w => Word.decimal w.byteLength

end Script

/-! ### Errors -/

inductive ParseError where
  /-- The given line should declare a rule. -/
  | declaration (line : Nat) (cause : DeclarationError)
  /-- The given line is a second delimiter instead of the start state. -/
  | duplicateDelimiter (line : Nat)
  /-- The given line follows the start state. -/
  | trailingLine (line : Nat)
  /-- The text ends before a start state is given. -/
  | missingStart
  deriving DecidableEq

namespace ParseError

def line? : ParseError → Option Nat
  | .declaration n _ => some n
  | .duplicateDelimiter n => some n
  | .trailingLine n => some n
  | .missingStart => none

def reason : ParseError → Word
  | .declaration _ e => e.message
  | .duplicateDelimiter _ => "expected start state".toList
  | .trailingLine _ => "unexpected line after start state".toList
  | .missingStart => "expected start state".toList

/-- The wording of the error, which begins with the line if there is one. -/
def message (e : ParseError) : Word :=
  match e.line? with
  | some n => "line ".toList ++ Word.decimal n ++ ": ".toList ++ e.reason
  | none => e.reason

end ParseError

/-! ### Items -/

/-- A part of a script that stands on a line of its own. -/
inductive Item where
  | rule (d : Declaration)
  | start (state : Word)
  deriving DecidableEq

/-- What is expected of the next line. -/
inductive Phase where
  /-- A declaration, or the delimiter that ends them. -/
  | rules
  | start
  | done
  deriving DecidableEq

namespace Phase

/-- What a line yields in a phase, and the phase of the next line. -/
def accept (phase : Phase) (line : Line) : Option (Except ParseError Item) × Phase :=
  match phase with
  | .rules =>
    if line.text = delimiter then (none, .start)
    else
      (some (((Declaration.parse line.text).mapError (.declaration line.number)).map .rule), .rules)
  | .start =>
    if line.text = delimiter then (some (.error (.duplicateDelimiter line.number)), .start)
    else (some (.ok (.start line.text)), .done)
  | .done => (some (.error (.trailingLine line.number)), .done)

def finish : Phase → Option (Except ParseError Item)
  | .done => none
  | _ => some (.error .missingStart)

/-- Everything that the given lines yield from a phase on. -/
def items : Phase → List Line → List (Except ParseError Item)
  | phase, [] => phase.finish.toList
  | phase, line :: lines => (phase.accept line).1.toList ++ items (phase.accept line).2 lines

end Phase

def Item.all (text : Word) : List (Except ParseError Item) :=
  Phase.rules.items (Line.significant text)

/-! ### Reading item by item -/

/-- A text that has been read up to some line. -/
structure Reader where
  phase : Phase
  lines : List Line

namespace Reader

def ofText (text : Word) : Reader := { phase := .rules, lines := Line.significant text }

/-- Reads from the given lines until one of them yields something. -/
def nextFrom : Phase → List Line → Option (Except ParseError Item) × Reader
  | phase, [] => (phase.finish, { phase := .done, lines := [] })
  | phase, line :: lines =>
    match phase.accept line with
    | (some item, phase) => (some item, { phase, lines })
    | (none, phase) => nextFrom phase lines

/-- The next item, or none when the text has ended. -/
def next (r : Reader) : Option (Except ParseError Item) × Reader := nextFrom r.phase r.lines

end Reader

/-! ### The script of a text -/

namespace Script

/-- The script that the given items make up, if there is a start state among them. -/
def ofItems? (items : List Item) : Option Script :=
  let rules := items.filterMap fun
    | .rule d => some d
    | .start _ => none
  let start? := items.findSome? fun
    | .rule _ => none
    | .start state => some state
  start?.map fun start => { rules, start }

/-- The script that the items of a text make up, or the first error among them. -/
def collect (items : List (Except ParseError Item)) : Except ParseError Script := do
  match ofItems? (← items.mapM id) with
  | some script => .ok script
  | none => .error .missingStart

def parse (text : Word) : Except ParseError Script := collect (Item.all text)

end Script

end SemiThue
