import SemiThue.CommandLine.Options
import SemiThue.CommandLine.Source
import SemiThue.Machine

/-!
# SemiThue.CommandLine.Run — running the programs of a command

All programs of a command run on one engine, one after the other, so that they share the random tape
and standard input.  The first failure ends the command.

* `runText` runs one program and writes its final state.
* `runSource` opens and reads a source first, and `runSources` runs several of them.
* `run` is the whole command.
-/

namespace SemiThue
namespace CommandLine

/-! ### Failures -/

inductive Failure where
  | source (cause : SourceError)
  | program (cause : ProgramError)
  /-- A program without a bound on its passes did not halt within the fuel. -/
  | unfinished
  deriving DecidableEq

namespace Failure

def declarationDetails : DeclarationError → Word
  | .missingDelimiter => "ExpectedDelimiter".toList
  | .emptyPattern => "EmptyPattern".toList

def parseDetails : ParseError → Word
  | .declaration n e =>
    "Rule(".toList ++ Word.decimal n ++ ", ".toList ++ declarationDetails e ++ ")".toList
  | .duplicateDelimiter n => "DuplicateDelimiter(".toList ++ Word.decimal n ++ ")".toList
  | .trailingLine n => "TrailingLine(".toList ++ Word.decimal n ++ ")".toList
  | .missingStart => "ExpectedStart".toList

def details : Failure → Word
  | .source e => "Io(".toList ++ e.details ++ ")".toList
  | .program (.parse e) => "Thue(Parse(".toList ++ parseDetails e ++ "))".toList
  | .program .emptyPattern => "Thue(EmptyPattern)".toList
  | .unfinished => "Unfinished".toList

def message : Failure → Word
  | .source e => e.message
  | .program e => e.message
  | .unfinished => "unfinished".toList

end Failure

/-! ### Programs -/

def finalLine (state : Word) : Word := "FINAL STATE: ".toList ++ state ++ ['\n']

/-- Writes a final state, unless the command is quiet. -/
def writeFinal (o : Options) (state : Word) (e : Engine Terminal) : Engine Terminal :=
  if o.quiet then e else { e with console := e.console.write (finalLine state) }

/-- Notes that a program was still running when its `n` passes were used up. -/
def noteLimit (n : Nat) (m : Machine Terminal) : Halt → Machine Terminal
  | .fixpoint => m
  | .limit => m.record (.noFixpoint n)

/-- Runs a program within the passes that it is allowed, or within the fuel if it is allowed any
number. -/
def execute (o : Options) (fuel : Nat) (m : Machine Terminal) : Option (Machine Terminal) :=
  match o.maxPasses with
  | some n =>
    let (halt, m) := m.runBounded n
    some (noteLimit n m halt)
  | none => m.run? fuel

/-- Runs the program of a text and gives its final state.  A text without a program has an empty
final state. -/
def runText (o : Options) (fuel : Nat) (text : Word) (e : Engine Terminal) :
    Except Failure Word × Engine Terminal :=
  match e.parse text with
  | (.error cause, e) => (.error (.program cause), writeFinal o [] e)
  | (.ok program, e) =>
    match execute o fuel { e.record (.started program.rules.length) with program } with
    | none => (.error .unfinished, e)
    | some m => (.ok m.program.state, writeFinal o m.program.state m.toEngine)

/-- Runs several texts, whatever becomes of each. -/
def runTexts (o : Options) (fuel : Nat) :
    List Word → Engine Terminal → List (Except Failure Word) × Engine Terminal
  | [], e => ([], e)
  | text :: texts, e =>
    let (result, e) := runText o fuel text e
    let (results, e) := runTexts o fuel texts e
    (result :: results, e)

/-! ### Sources -/

def runSource (o : Options) (fuel : Nat) (opening : Opening) (path : Word) (e : Engine Terminal) :
    Except Failure Word × Engine Terminal :=
  match Source.ofPath opening path with
  | .error cause => (.error (.source cause), e)
  | .ok source =>
    let e := e.record (.opened source.name)
    match source.read e.console with
    | (.error cause, console) => (.error (.source cause), { e with console })
    | (.ok text, console) => runText o fuel text { e with console }

/-- Runs sources up to the first failure. -/
def runSources (o : Options) (fuel : Nat) (opening : Opening) :
    List Word → Engine Terminal → Except Failure Unit × Engine Terminal
  | [], e => (.ok (), e)
  | path :: paths, e =>
    match runSource o fuel opening path e with
    | (.error failure, e) => (.error failure, e)
    | (.ok _, e) => runSources o fuel opening paths e

/-! ### Commands -/

/-- Runs the sample if it is asked for, then all files. -/
def run (o : Options) (fuel : Nat) (opening : Opening) (e : Engine Terminal) :
    Except Failure Unit × Engine Terminal :=
  if o.sample then
    match runText o fuel Sample.binaryIncrement e with
    | (.error failure, e) => (.error failure, e)
    | (.ok _, e) => runSources o fuel opening o.files e
  else runSources o fuel opening o.files e

end CommandLine
end SemiThue
