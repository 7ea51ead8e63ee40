import SemiThue.Word.Slice

/-!
# SemiThue.CommandLine.Options — the arguments of the command

The command takes `--seed N`, `--max-passes N`, `--sample`, `--quiet` and names of files, in any
order and each option at most once.  A value may also be joined to its option, as in `--seed=N`.
After `--` every argument is a file, and `-` is the file that stands for standard input.
-/

namespace SemiThue
namespace CommandLine

/-! ### Numbers -/

/-- The value of a decimal numeral with at least one digit. -/
def digits? (w : Word) : Option Nat :=
  if w.isEmpty then none
  else w.foldlM (fun n c => if c.isDigit then some (10 * n + (c.toNat - '0'.toNat)) else none) 0

/-- The number that an argument gives: decimal digits, perhaps after a plus sign, and less than
`2 ^ 64`. -/
def number? (w : Word) : Option Nat :=
  let value := match w with
    | '+' :: digits => digits? digits
    | digits => digits? digits
  value.filter (· < UInt64.size)

/-! ### Single arguments -/

inductive Setting where
  | seed
  | maxPasses
  deriving DecidableEq

inductive Flag where
  | sample
  | quiet
  deriving DecidableEq

/-- What one argument is by itself. -/
inductive Argument where
  /-- An option with a number, which may be joined to it or be the next argument. -/
  | setting (s : Setting) (value : Option Word)
  | flag (f : Flag)
  /-- The mark after which all arguments are files. -/
  | endOfOptions
  | file (name : Word)
  deriving DecidableEq

namespace Argument

def ofName? (name : Word) : Option Argument :=
  if name = "seed".toList then some (.setting .seed none)
  else if name = "max-passes".toList then some (.setting .maxPasses none)
  else if name = "sample".toList then some (.flag .sample)
  else if name = "quiet".toList then some (.flag .quiet)
  else none

/-- Joins a value to an option that takes one. -/
def withValue? (value : Word) : Argument → Option Argument
  | .setting s _ => some (.setting s (some value))
  | _ => none

/-- What an argument is, unless it looks like an option and is none, or is empty. -/
def ofWord? : Word → Option Argument
  | [] => none
  | ['-'] => some (.file ['-'])
  | ['-', '-'] => some .endOfOptions
  | '-' :: '-' :: option =>
    match Word.splitAtFirst? option ['='] with
    | none => ofName? option
    | some (name, value) => (ofName? name).bind (withValue? value)
  | '-' :: _ => none
  | name => some (.file name)

end Argument

/-! ### All arguments -/

structure Options where
  seed : Option Nat := none
  /-- The number of passes after which every program is stopped. -/
  maxPasses : Option Nat := none
  /-- Whether the sample program is run first. -/
  sample : Bool := false
  /-- Whether final states are left out. -/
  quiet : Bool := false
  /-- The programs to run, one after the other. -/
  files : List Word := []
  deriving DecidableEq

namespace Options

/-- Sets an option that has not been set. -/
def set? (o : Options) (s : Setting) (value : Word) : Option Options :=
  match s, number? value with
  | .seed, some n => if o.seed.isSome then none else some { o with seed := some n }
  | .maxPasses, some n => if o.maxPasses.isSome then none else some { o with maxPasses := some n }
  | _, none => none

/-- Raises a flag that has not been raised. -/
def raise? (o : Options) : Flag → Option Options
  | .sample => if o.sample then none else some { o with sample := true }
  | .quiet => if o.quiet then none else some { o with quiet := true }

def addFile? (o : Options) (name : Word) : Option Options :=
  if name.isEmpty then none else some { o with files := o.files ++ [name] }

/-- Takes the arguments one after the other. -/
def extend? : Options → List Word → Option Options
  | o, [] => some o
  | o, arg :: args =>
    match Argument.ofWord? arg with
    | none => none
    | some .endOfOptions => args.foldlM addFile? o
    | some (.file name) => (o.addFile? name).bind (extend? · args)
    | some (.flag f) => (o.raise? f).bind (extend? · args)
    | some (.setting s (some value)) => (o.set? s value).bind (extend? · args)
    | some (.setting s none) =>
      match args with
      | [] => none
      | value :: args => (o.set? s value).bind (extend? · args)

/-- The options that the arguments give.  There has to be something to run. -/
def parse? (args : List Word) : Option Options :=
  (extend? {} args).filter fun o => o.sample || !o.files.isEmpty

end Options

end CommandLine
end SemiThue
