import SemiThue.Word.Slice

/-!
# SemiThue.Declaration — rules as they are written

A rule is written on one line, as its pattern, the delimiter `::=` and its right-hand side.  The
first delimiter of the line counts, so a right-hand side may itself contain delimiters.

The right-hand side is `:::` to read a line of input, begins with `~` to print a message, and is the
replacement in all other cases.
-/

namespace SemiThue

/-! ### Right-hand sides -/

/-- What a rule is to do with an occurrence of its pattern, as its right-hand side says. -/
inductive Action where
  /-- Replaces the occurrence by a fixed text. -/
  | replace (text : Word)
  /-- Prints a message, or a newline if it is empty, and removes the occurrence. -/
  | print (message : Word)
  /-- Replaces the occurrence by a line of input. -/
  | read
  deriving DecidableEq

namespace Action

/-- The right-hand side that stands for reading a line. -/
def readMark : Word := [':', ':', ':']

def ofWord (w : Word) : Action :=
  if w = readMark then .read
  else
    match w with
    | '~' :: message => .print message
    | text => .replace text

def display : Action → Word
  | .replace text => text
  | .print message => '~' :: message
  | .read => readMark

def mapText (f : Word → Word) : Action → Action
  | .replace text => .replace (f text)
  | .print message => .print (f message)
  | .read => .read

/-- Every word is the right-hand side of the action that it stands for. -/
@[simp]
theorem display_ofWord (w : Word) : (ofWord w).display = w := by
  unfold ofWord
  split
  · simp_all [display]
  · split <;> rfl

end Action

/-! ### Rule lines -/

/-- The word between the two sides of a rule, and between the rules and the start state. -/
def delimiter : Word := [':', ':', '=']

/-- A rule as it is written.  Nothing is asked of its pattern. -/
structure Declaration where
  pattern : Word
  action : Action
  deriving DecidableEq

inductive DeclarationError where
  | missingDelimiter
  | emptyPattern
  deriving DecidableEq

def DeclarationError.message : DeclarationError → Word
  | .missingDelimiter => "expected ".toList ++ delimiter
  | .emptyPattern => "empty left-hand side".toList

namespace Declaration

/-- Reads the rule on a line, none of which is trimmed. -/
def parse (line : Word) : Except DeclarationError Declaration :=
  match line.splitAtFirst? delimiter with
  | none => .error .missingDelimiter
  | some ([], _) => .error .emptyPattern
  | some (pattern, rhs) => .ok { pattern, action := Action.ofWord rhs }

def display (d : Declaration) : Word := d.pattern ++ delimiter ++ d.action.display

def mapText (f : Word → Word) (d : Declaration) : Declaration :=
  { pattern := f d.pattern, action := d.action.mapText f }

end Declaration

end SemiThue
