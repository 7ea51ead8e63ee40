import SemiThue.Console

/-!
# SemiThue.CommandLine.Source — where program texts come from

A source is a file or standard input.  Sources are opened before they are read, and either can fail:
a directory, for example, can be opened but not read.  Which files there are is up to the system, so
opening a path is a parameter of whatever reads files (`Opening`).
-/

namespace SemiThue
namespace CommandLine

/-! ### Failures -/

/-- An error of input or output. -/
structure SourceError where
  kind : Word
  /-- The number of the error, if it comes from the operating system. -/
  code? : Option Nat := none
  reason : Word
  deriving DecidableEq

namespace SourceError

def message (e : SourceError) : Word :=
  match e.code? with
  | some code => e.reason ++ " (os error ".toList ++ Word.decimal code ++ ")".toList
  | none => e.reason

def details (e : SourceError) : Word :=
  let quoted := "message: \"".toList ++ e.reason ++ "\" \x7d".toList
  match e.code? with
  | some code =>
    "Os \x7b code: ".toList ++ Word.decimal code ++ ", kind: ".toList ++ e.kind ++ ", ".toList ++
      quoted
  | none => "Error \x7b kind: ".toList ++ e.kind ++ ", ".toList ++ quoted

/-- The bytes that were read are no text. -/
def invalidText : SourceError :=
  { kind := "InvalidData".toList, reason := "stream did not contain valid UTF-8".toList }

end SourceError

/-! ### Files -/

/-- A file that has been opened: its bytes, or the error with which reading them ends. -/
abbrev File := Except SourceError (List UInt8)

/-- What comes of opening the file at a path. -/
abbrev Opening := Word → Except SourceError File

/-- The text that the given bytes encode. -/
def decode (bytes : List UInt8) : Except SourceError Word :=
  match Word.ofBytes? bytes with
  | some text => .ok text
  | none => .error .invalidText

/-! ### Sources -/

inductive Source where
  | standardInput
  | file (path : Word) (content : File)

namespace Source

/-- Opens the source that a path names.  The path `-` stands for standard input. -/
def ofPath (opening : Opening) (path : Word) : Except SourceError Source :=
  if path = ['-'] then .ok .standardInput else (opening path).map (.file path)

def name : Source → Word
  | .standardInput => "standard input".toList
  | .file path _ => path

/-- Reads the text of a source.  From standard input, all the rest is taken. -/
def read (console : Terminal) : Source → Except SourceError Word × Terminal
  | .standardInput =>
    let (content, input) := console.input.takeAll
    (decode content, { console with input })
  | .file _ content => (content.bind decode, console)

end Source

end CommandLine
end SemiThue
