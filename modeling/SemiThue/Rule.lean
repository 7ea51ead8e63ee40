import SemiThue.Console
import SemiThue.Script
import SemiThue.Tape
import SemiThue.Word.Occurrence

/-!
# SemiThue.Rule — the rules of a program

A rule has a pattern, which is never empty, and a kind, which says what is done with an occurrence
of the pattern.

* `Kind.perform` is all that a rule does with a console.
* `Rule.ofDeclaration` makes the rule of a declaration, and `Rule.toDeclaration` leads back.
* `Rule.substitute` exchanges one occurrence of the pattern, which is chosen at random, for what the
  kind gives.  It hands on tape and console in any case.
-/

namespace SemiThue

/-! ### Kinds -/

/-- What a rule does with an occurrence of its pattern. -/
inductive Kind where
  /-- Replaces the occurrence by a fixed text. -/
  | standard (text : Word)
  /-- Prints a message, or a newline if it is empty, and removes the occurrence. -/
  | print (message : Word)
  /-- Replaces the occurrence by a line of input. -/
  | read
  deriving DecidableEq

namespace Kind

def ofAction : Action → Kind
  | .replace text => .standard text
  | .print message => .print message
  | .read => .read

def toAction : Kind → Action
  | .standard text => .replace text
  | .print message => .print message
  | .read => .read

@[simp]
theorem toAction_ofAction (a : Action) : (ofAction a).toAction = a := by
  cases a <;> rfl

@[simp]
theorem ofAction_toAction (k : Kind) : ofAction k.toAction = k := by
  cases k <;> rfl

variable {C : Type} [Console C]

/-- Prints or reads what a rule demands, and gives the replacement for an occurrence. -/
def perform (c : C) : Kind → Word × C
  | .standard text => (text, c)
  | .print message => ([], Console.write c (if message.isEmpty then ['\n'] else message))
  | .read => Console.readLine c

/-- What is worth noting about that. -/
def events (c : C) : Kind → List Event
  | .read => Console.readEvents c
  | _ => []

end Kind

/-! ### Rules -/

inductive ProgramError where
  | parse (cause : ParseError)
  | emptyPattern
  deriving DecidableEq

def ProgramError.message : ProgramError → Word
  | .parse e => "parse error: ".toList ++ e.message
  | .emptyPattern => "rule with empty left-hand side".toList

structure Rule where
  pattern : Word
  kind : Kind
  pattern_ne_nil : pattern ≠ []
  deriving DecidableEq

namespace Rule

/-- The rule with the given pattern, which may not be empty. -/
def make (pattern : Word) (kind : Kind) : Except ProgramError Rule :=
  if h : pattern = [] then .error .emptyPattern else .ok ⟨pattern, kind, h⟩

/-- The rule that a declaration declares. -/
def ofDeclaration (d : Declaration) : Except ProgramError Rule :=
  make d.pattern (Kind.ofAction d.action)

def toDeclaration (r : Rule) : Declaration := { pattern := r.pattern, action := r.kind.toAction }

def display (r : Rule) : Word := r.toDeclaration.display

end Rule

/-! ### Substitutions -/

/-- How an attempt to apply a rule can end. -/
inductive Attempt (α : Type) where
  | applied (a : α)
  /-- The pattern does not occur. -/
  | missed
  /-- A place was used that does not exist: there is no rule, or no cut of the state. -/
  | fault
  deriving DecidableEq

def Attempt.applied? {α : Type} : Attempt α → Option α
  | .applied a => some a
  | _ => none

/-- What becomes of a state when a rule is applied to it. -/
structure Substitution where
  /-- Where the occurrence starts that was replaced. -/
  position : Nat
  /-- What the occurrence was replaced by. -/
  replacement : Word
  state : Word
  /-- What the console noted. -/
  events : List Event
  deriving DecidableEq

/-- Replaces a random occurrence of the pattern.  The position is chosen first, and then the console
is used. -/
def Rule.substitute {C : Type} [Console C] (r : Rule) (state : Word) (tape : Tape) (console : C) :
    Attempt Substitution × Tape × C :=
  match tape.choose (state.occurrences r.pattern) with
  | (none, tape) => (.missed, tape, console)
  | (some position, tape) =>
    let events := r.kind.events console
    let (replacement, console) := r.kind.perform console
    match state.splice? position (position + r.pattern.byteLength) replacement with
    | some state => (.applied { position, replacement, state, events }, tape, console)
    | none => (.fault, tape, console)

end SemiThue
