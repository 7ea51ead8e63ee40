import SemiThue.Rule

/-!
# SemiThue.Program — programs in execution

A program consists of rules, the state that they change, and the number of steps made so far.  Its
text is that of a script which would continue from the current state.
-/

namespace SemiThue

/-- Rules together with the state that they change. -/
structure Program where
  /-- The rules in the order of their declaration. -/
  rules : List Rule
  state : Word
  /-- The number of substitutions made so far. -/
  steps : Nat := 0
  deriving DecidableEq

namespace Program

/-- The program that starts to run a script. -/
def ofScript (s : Script) : Except ProgramError Program := do
  let rules ← s.rules.mapM Rule.ofDeclaration
  return { rules, state := s.start }

def parse (text : Word) : Except ProgramError Program :=
  match Script.parse text with
  | .ok s => ofScript s
  | .error e => .error (.parse e)

/-- What is noted while a text is read: every rule before the first error, and the start state if
there is none. -/
def parseEvents (text : Word) : List Event :=
  let rules := ((Item.all text).takeWhile (·.isOk)).filterMap fun
    | .ok (.rule d) => some (.parsedRule d)
    | _ => none
  let start := match Script.parse text with
    | .ok s => [.parsedStart s.start]
    | .error _ => []
  rules ++ start

/-- The text of a program: a line for each rule, one for the delimiter and one for the current
state. -/
def display (p : Program) : Word :=
  p.rules.flatMap (fun r => r.display ++ ['\n']) ++ delimiter ++ ['\n'] ++ p.state ++ ['\n']

end Program

/-! ### A program to try out -/

namespace Sample

/-- Adds one to the binary number between the underscores. -/
def binaryIncrement : Word :=
  "
1_::=1++
0_::=1
01++::=10

11++::=1++0

_0::=_
_1++::=10

::=

_1111111111_
".toList

end Sample

end SemiThue
