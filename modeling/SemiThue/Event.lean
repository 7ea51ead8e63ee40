import SemiThue.Declaration

/-!
# SemiThue.Event — what happens during a run

Every event has a level of detail, the part of the program that it comes from, which is its target,
and a text.  A journal keeps the events that it is asked to keep, and has no influence on the run.
-/

namespace SemiThue

/-! ### Levels -/

/-- Levels of detail, from the most severe events to the most detailed ones. -/
inductive Level where
  | error
  | warn
  | info
  | debug
  | trace
  deriving DecidableEq

namespace Level

/-- The place of a level, counted from the most severe. -/
def rank : Level → Nat
  | .error => 1
  | .warn => 2
  | .info => 3
  | .debug => 4
  | .trace => 5

def name : Level → Word
  | .error => "ERROR".toList
  | .warn => "WARN".toList
  | .info => "INFO".toList
  | .debug => "DEBUG".toList
  | .trace => "TRACE".toList

/-- The level with the given name, in upper or lower case. -/
def ofName? (w : Word) : Option Level :=
  [error, warn, info, debug, trace].find? fun l => l.name = w.map Char.toUpper

end Level

/-! ### Events -/

/-- What happens while programs are read and run. -/
inductive Event where
  | parsedRule (d : Declaration)
  /-- A whole text was read, and this is its start state. -/
  | parsedStart (state : Word)
  /-- A pass began after so many steps, with the rules in this order. -/
  | passBegan (steps : Nat) (order : List Nat)
  | applied (rule : Declaration) (state : Word)
  | halted (steps : Nat)
  /-- All passes of a bounded run were made. -/
  | stopped (passes : Nat)
  /-- A line was read after the end of the input. -/
  | inputEnded
  /-- A line of input was not valid text. -/
  | inputUnreadable
  | opened (name : Word)
  /-- A program with so many rules is about to run. -/
  | started (rules : Nat)
  /-- A program was still running when its passes were used up. -/
  | noFixpoint (passes : Nat)
  deriving DecidableEq

namespace Event

def level : Event → Level
  | parsedRule _ | parsedStart _ | applied .. | inputEnded => .debug
  | passBegan .. => .trace
  | halted _ | stopped _ | opened _ | started _ => .info
  | inputUnreadable | noFixpoint _ => .warn

/-- The part of the program that an event comes from. -/
def target : Event → Word
  | parsedRule _ | parsedStart _ => "thue_parse::program".toList
  | passBegan .. | applied .. | halted _ | stopped _ => "thue::engine".toList
  | inputEnded | inputUnreadable => "thue::console".toList
  | opened _ | started _ | noFixpoint _ => "thuerun".toList

def displayOrder (order : List Nat) : Word :=
  "[".toList ++ ", ".toList.intercalate (order.map Word.decimal) ++ "]".toList

def text : Event → Word
  | parsedRule d => "Parsed rule ".toList ++ d.display
  | parsedStart state => "Parsed start state ".toList ++ state
  | passBegan steps order =>
    "Pass ".toList ++ Word.decimal steps ++ " with rule order ".toList ++ displayOrder order
  | applied rule state => "Apply ".toList ++ rule.display ++ ": ".toList ++ state
  | halted steps => "Halted after ".toList ++ Word.decimal steps ++ " steps".toList
  | stopped passes => "Stopped after ".toList ++ Word.decimal passes ++ " passes".toList
  | inputEnded => "End of input".toList
  | inputUnreadable => "Could not read input: stream did not contain valid UTF-8".toList
  | opened name => "Read ".toList ++ name
  | started rules => "Run program with ".toList ++ Word.decimal rules ++ " rules".toList
  | noFixpoint passes =>
    "No fixpoint reached after ".toList ++ Word.decimal passes ++ " passes".toList

def display (e : Event) : Word := e.level.name ++ " ".toList ++ e.target ++ ": ".toList ++ e.text

end Event

/-! ### Journals -/

/-- The events of a run that are kept. -/
structure Journal where
  /-- Which events are kept. -/
  admits : Event → Bool := fun e => e.level = .error
  /-- The events that were kept, the latest first. -/
  latest : List Event := []

namespace Journal

/-- Adds an event if it is one to be kept. -/
def record (j : Journal) (e : Event) : Journal :=
  if j.admits e then { j with latest := e :: j.latest } else j

def recordAll (j : Journal) (es : List Event) : Journal := es.foldl record j

def events (j : Journal) : List Event := j.latest.reverse

end Journal

end SemiThue
