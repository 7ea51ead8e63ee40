import SemiThue.Program

/-!
# SemiThue.Machine — passes over the rules of a program

In every pass the rules are tried in a random order, and the first one whose pattern occurs in the
state is applied. A run ends with the first pass that applies none, or when the passes allowed to it
are used up.

* `Program.attempt` tries the rules in a given order, and hands tape and console from each to the
  next.
* `Machine.pass` makes one pass, with an order drawn from the tape.
* `Machine.trace` lists the passes of a run, and `Machine.advance` is where it ends.
* `Machine.runBounded` is a run with a bound on its passes, and `Machine.run?` is one without.  Both
  note how they ended.
-/

namespace SemiThue

/-! ### Engines -/

/-- What programs run on, one after the other. -/
structure Engine (C : Type) where
  console : C
  tape : Tape
  /-- The places of the rules in the order of the latest pass. -/
  order : List Nat := []
  journal : Journal := {}

/-- An engine with the program that it runs. -/
structure Machine (C : Type) extends Engine C where
  program : Program

variable {C : Type}

namespace Engine

def record (e : Engine C) (event : Event) : Engine C :=
  { e with journal := e.journal.record event }

def recordAll (e : Engine C) (events : List Event) : Engine C :=
  { e with journal := e.journal.recordAll events }

/-- Reads the program of a text, and notes what is read. -/
def parse (e : Engine C) (text : Word) : Except ProgramError Program × Engine C :=
  (Program.parse text, e.recordAll (Program.parseEvents text))

def clearOrder (e : Engine C) : Engine C := { e with order := [] }

def extendOrder (e : Engine C) (n : Nat) : Engine C := { e with order := e.order ++ List.range n }

def shuffleOrder (e : Engine C) : Engine C :=
  let (order, tape) := e.tape.shuffle e.order
  { e with order, tape }

/-- Brings the places of `n` rules into a random order. -/
def drawOrder (e : Engine C) (n : Nat) : Engine C := (e.clearOrder.extendOrder n).shuffleOrder

end Engine

def Machine.record (m : Machine C) (event : Event) : Machine C :=
  { m with journal := m.journal.record event }

variable [Console C]

/-! ### Passes -/

structure Application where
  /-- The place of the rule among the rules of the program. -/
  index : Nat
  rule : Rule
  result : Substitution

namespace Program

/-- Tries the rules at the given places, one after the other, until one of them is applied. -/
def attempt (p : Program) : List Nat → Tape → C → Attempt Application × Tape × C
  | [], tape, console => (.missed, tape, console)
  | index :: order, tape, console =>
    match p.rules[index]? with
    | none => (.fault, tape, console)
    | some rule =>
      match rule.substitute p.state tape console with
      | (.applied result, tape, console) => (.applied { index, rule, result }, tape, console)
      | (.missed, tape, console) => p.attempt order tape console
      | (.fault, tape, console) => (.fault, tape, console)

def apply (p : Program) (a : Application) : Program :=
  { p with state := a.result.state, steps := p.steps + 1 }

end Program

structure Pass (C : Type) where
  outcome : Attempt Application
  machine : Machine C

namespace Pass

/-- The rule that was applied, if there was one. -/
def applied (p : Pass C) : Option Application := p.outcome.applied?

def changed (p : Pass C) : Bool := p.applied.isSome

/-- The order in which the rules were tried. -/
def order (p : Pass C) : List Nat := p.machine.order

end Pass

namespace Machine

/-- Performs at most one substitution. -/
def pass (m : Machine C) : Pass C :=
  let e := m.toEngine.drawOrder m.program.rules.length
  let e := e.record (.passBegan m.program.steps e.order)
  let (outcome, tape, console) := m.program.attempt e.order e.tape e.console
  let e := { e with tape, console }
  match outcome with
  | .applied a =>
    let e := (e.recordAll a.result.events).record (.applied a.rule.toDeclaration a.result.state)
    { outcome, machine := { e with program := m.program.apply a } }
  | _ => { outcome, machine := { e with program := m.program } }

end Machine

/-! ### Runs -/

inductive Halt where
  /-- A pass applied no rule. -/
  | fixpoint
  /-- All passes were made, and each of them applied a rule. -/
  | limit
  deriving DecidableEq

namespace Machine

/-- Makes up to `n` passes, and ends with the first one that applies no rule. -/
def advance : Nat → Machine C → Halt × Machine C
  | 0, m => (.limit, m)
  | n + 1, m =>
    let p := m.pass
    if p.changed then advance n p.machine else (.fixpoint, p.machine)

/-- The passes that `advance` makes, the one that applies no rule included. -/
def trace : Nat → Machine C → List (Pass C)
  | 0, _ => []
  | n + 1, m =>
    let p := m.pass
    p :: if p.changed then trace n p.machine else []

/-- Notes how a run of at most `n` passes ended. -/
def noteHalt (n : Nat) (m : Machine C) : Halt → Machine C
  | .fixpoint => m.record (.halted m.program.steps)
  | .limit => m.record (.stopped n)

/-- Runs the program for at most `n` passes.  Where all of them apply a rule, the run ended by its
limit, even if no rule applies any more. -/
def runBounded (n : Nat) (m : Machine C) : Halt × Machine C :=
  let (halt, m) := m.advance n
  (halt, m.noteHalt n halt)

/-- Makes passes until one applies no rule.  There is no result if it takes more than `fuel` passes
to come to that. -/
def settle? : Nat → Machine C → Option (Machine C)
  | 0, _ => none
  | fuel + 1, m =>
    let p := m.pass
    if p.changed then settle? fuel p.machine else some p.machine

/-- Runs the program until no rule applies. -/
def run? (fuel : Nat) (m : Machine C) : Option (Machine C) := do
  let m ← m.settle? fuel
  return m.record (.halted m.program.steps)

end Machine

end SemiThue
