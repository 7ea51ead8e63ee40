import SemiThue.CommandLine.Run
import SemiThue.Event.Filter
import SemiThue.Tape.ChaCha

/-!
# SemiThue.CommandLine.Report — what a command leaves behind

A command gets its arguments and an environment, and leaves an exit code, its output and what was
noted on the way.  Which events are noted is told by a filter, which is part of the environment.
-/

namespace SemiThue
namespace CommandLine

structure Report where
  code : Nat
  output : Word
  diagnostics : Word
  deriving DecidableEq

/-- An event in standard error.  The lines of its text after the first are indented. -/
def eventLine (e : Event) : Word :=
  let text := e.text.flatMap fun c => if c = '\n' then "\n    ".toList else [c]
  "[".toList ++ e.level.name.rightpad 5 ' ' ++ " ".toList ++ e.target ++ "] ".toList ++ text ++
    ['\n']

def warningLine (w : FilterWarning) : Word := w.message ++ ['\n']

def failureLine (f : Failure) : Word := "Error: ".toList ++ f.details ++ ['\n']

def Report.ofResult (warnings : List FilterWarning) : Except Failure Unit × Engine Terminal → Report
  | (.ok (), e) =>
    { code := 0, output := e.console.output
      diagnostics := warnings.flatMap warningLine ++ e.journal.events.flatMap eventLine }
  | (.error f, e) =>
    { code := 1, output := e.console.output
      diagnostics := warnings.flatMap warningLine ++ e.journal.events.flatMap eventLine ++
        failureLine f }

structure Environment where
  opening : Opening
  input : List UInt8 := []
  /-- The text of the filter for standard error. -/
  logging : Option Word := none
  /-- The seed for commands that do not choose one. -/
  entropy : Nat := 0

namespace Environment

/-- The filter for standard error, and what is wrong with its text. -/
def filter (env : Environment) : Filter × List FilterWarning :=
  env.logging.elim ({}, []) Filter.parse

/-- The engine on which a command starts. -/
def engine (env : Environment) (o : Options) : Engine Terminal :=
  { console := .ofInput env.input
    tape := .ofSeed (o.seed.getD env.entropy).toUInt64
    journal := { admits := env.filter.1.admits } }

end Environment

/-- Runs the command with the given options. -/
def report (o : Options) (fuel : Nat) (env : Environment) : Report :=
  .ofResult env.filter.2 (run o fuel env.opening (env.engine o))

end CommandLine
end SemiThue
