import SemiThue.Event

/-!
# SemiThue.Console — input and output of programs

Rules that print or read do so on a console.  Consoles do not fail: reading when there is no more
input gives the empty line.

* `Buffer` is a console in memory, with a queue of input lines and the output so far.
* `Terminal` is the console of a process.  Standard input is a stream of bytes that is taken piece
  by piece: a line for every rule that reads, or all the rest at once.
-/

namespace SemiThue

/-- Line-based input and output. -/
class Console (C : Type) where
  write : C → Word → C
  /-- Takes a line of input, without its line break. -/
  readLine : C → Word × C
  /-- What is worth noting when the next line is taken. -/
  readEvents : C → List Event

/-! ### Consoles in memory -/

/-- A console in memory. -/
structure Buffer where
  /-- The lines that have not been read yet. -/
  input : List Word := []
  /-- Everything that was written. -/
  output : Word := []

namespace Buffer

def pushInput (b : Buffer) (line : Word) : Buffer := { b with input := b.input ++ [line] }

def write (b : Buffer) (text : Word) : Buffer := { b with output := b.output ++ text }

def readLine (b : Buffer) : Word × Buffer := (b.input.headD [], { b with input := b.input.tail })

instance : Console Buffer where
  write := write
  readLine := readLine
  readEvents _ := []

end Buffer

/-! ### Streams of bytes -/

structure ByteStream where
  /-- The bytes that have not been taken. -/
  rest : List UInt8
  /-- The pieces that have been taken, in order. -/
  taken : List (List UInt8) := []

namespace ByteStream

/-- Takes the bytes up to and including the next line feed, or all bytes if there is none. -/
def takeLine (s : ByteStream) : List UInt8 × ByteStream :=
  let front := s.rest.takeWhile (· != 10)
  let back := s.rest.dropWhile (· != 10)
  let piece := front ++ back.take 1
  (piece, { rest := back.drop 1, taken := s.taken ++ [piece] })

def takeAll (s : ByteStream) : List UInt8 × ByteStream :=
  (s.rest, { rest := [], taken := s.taken ++ [s.rest] })

end ByteStream

/-! ### Lines of input -/

/-- A line without its line break: a line feed at the end, and one carriage return before that. -/
def Word.dropLineBreak (w : Word) : Word :=
  match w.reverse with
  | '\n' :: '\r' :: r => r.reverse
  | '\n' :: r => r.reverse
  | _ => w

/-- What is found where a line is to be read. -/
inductive Reading where
  | line (text : Word)
  /-- The bytes of the line are no text. -/
  | unreadable
  | ended
  deriving DecidableEq

namespace Reading

def ofPiece (piece : List UInt8) : Reading :=
  if piece.isEmpty then .ended
  else
    match Word.ofBytes? piece with
    | some w => .line w.dropLineBreak
    | none => .unreadable

/-- The line that is read: an empty one where there is none. -/
def text : Reading → Word
  | .line text => text
  | _ => []

def events : Reading → List Event
  | .line _ => []
  | .unreadable => [.inputUnreadable]
  | .ended => [.inputEnded]

end Reading

/-! ### Terminals -/

structure Terminal where
  input : ByteStream
  output : Word := []

namespace Terminal

/-- The console of a process that has the given bytes as its input. -/
def ofInput (bs : List UInt8) : Terminal := { input := { rest := bs } }

def write (t : Terminal) (text : Word) : Terminal := { t with output := t.output ++ text }

def readLine (t : Terminal) : Word × Terminal :=
  let (piece, input) := t.input.takeLine
  ((Reading.ofPiece piece).text, { t with input })

instance : Console Terminal where
  write := write
  readLine := readLine
  readEvents t := (Reading.ofPiece t.input.takeLine.1).events

end Terminal

end SemiThue
