import SemiThue.Event
import SemiThue.Regex.Parse

/-!
# SemiThue.Event.Filter — which events are kept

A filter is written as directives, divided by commas, and perhaps a regular expression after a slash
that the text of an event has to match.  A directive is the name of a level, or the beginning of a
target, or both with an equals sign between them; of the directives for a target, the most specific
one counts, and of several for the same, the last.  A target alone admits all its events, and the
level `off` admits none.

Faulty directives are left out, and there is a warning for each.
-/

namespace SemiThue

/-! ### Directives -/

/-- The most detailed level for the targets that begin with a word; without a level, none of their
events. -/
structure Directive where
  target : Word
  level : Option Level
  deriving DecidableEq

inductive FilterWarning where
  | tooManySlashes (spec : Word)
  /-- A directive, or the level in it, makes no sense. -/
  | directive (part : Word)
  /-- The regular expression makes no sense. -/
  | pattern (source : Word) (cause : Regex.Error)
  deriving DecidableEq

def FilterWarning.message : FilterWarning → Word
  | .tooManySlashes spec =>
    "warning: invalid logging spec '".toList ++ spec ++ "', ignoring it (too many '/'s)".toList
  | .directive part => "warning: invalid logging spec '".toList ++ part ++ "', ignoring it".toList
  | .pattern source e => "warning: invalid regex filter - ".toList ++ Regex.Error.message source e

structure Filter where
  /-- Without directives, only errors are kept. -/
  directives : List Directive := []
  /-- What the texts of events have to match. -/
  pattern : Option Regex := none

namespace Filter

/-! ### Filtering -/

/-- The directive that counts for a target: the longest one that fits, and the later of two equal
ones. -/
def directiveFor? (f : Filter) (target : Word) : Option Directive :=
  f.directives.foldl (fun best d =>
    if d.target.isPrefixOf target && best.all (·.target.length ≤ d.target.length) then some d
    else best) none

/-- The most detailed level that is kept for a target. -/
def levelFor? (f : Filter) (target : Word) : Option Level :=
  if f.directives.isEmpty then some .error else (f.directiveFor? target).bind (·.level)

def admits (f : Filter) (e : Event) : Bool :=
  (f.levelFor? e.target).any (e.level.rank ≤ ·.rank) && f.pattern.all (·.occursIn e.text)

/-! ### Reading filters -/

/-- The level that a name gives, where `off` gives none. -/
def level? (name : Word) : Option (Option Level) :=
  if name.map Char.toUpper = "OFF".toList then some none else (Level.ofName? name).map some

def readDirective (part : Word) : Except FilterWarning Directive :=
  match part.fields '=' with
  | [name] =>
    match level? name with
    | some level => .ok { target := [], level }
    | none => .ok { target := name, level := some .trace }
  | [target, name] =>
    let name := name.trimBlank
    if name.isEmpty then .ok { target, level := some .trace }
    else
      match level? name with
      | some level => .ok { target, level }
      | none => .error (.directive name)
  | _ => .error (.directive part)

def readDirectives (text : Word) : List (Except FilterWarning Directive) :=
  (((text.fields ',').map Word.trimBlank).filter (!·.isEmpty)).map readDirective

def parse (spec : Word) : Filter × List FilterWarning :=
  let read (text : Word) : Filter × List FilterWarning :=
    let results := readDirectives text
    ({ directives := results.filterMap (·.toOption) },
      results.filterMap fun | .error w => some w | .ok _ => none)
  match spec.fields '/' with
  | [text] => read text
  | [text, source] =>
    let (filter, warnings) := read text
    match Regex.parse source with
    | .ok pattern => ({ filter with pattern := some pattern }, warnings)
    | .error cause => (filter, warnings ++ [.pattern source cause])
  | _ => ({}, [.tooManySlashes spec])

end Filter

end SemiThue
