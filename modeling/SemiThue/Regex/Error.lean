import SemiThue.Word

/-!
# SemiThue.Regex.Error — what is wrong with a regular expression

An expression may be badly formed, or it may be well formed and ask for what cannot be had: sets and
cases of letters beyond ASCII, for which there are no tables here, or bytes that are no text.  Most
errors show the part of the expression that they are about.
-/

namespace SemiThue
namespace Regex

/-! ### Faults -/

inductive Fault where
  | classEscapeInvalid
  | classRangeInvalid
  | classRangeLiteral
  | classUnclosed
  | decimalInvalid
  | hexEmpty
  | hexInvalid
  | hexDigitInvalid
  | escapeUnfinished
  | escapeUnknown
  | flagDanglingNegation
  | flagDuplicate
  | flagRepeatedNegation
  | flagUnfinished
  | flagUnknown
  | groupNameDuplicate
  | groupNameEmpty
  | groupNameInvalid
  | groupNameUnfinished
  | groupUnclosed
  | groupUnopened
  | countInvalid
  | countEmpty
  | countUnclosed
  | nothingToRepeat
  | backreference
  | lookAround
  | propertyMalformed
  /-- There is no such property of characters. -/
  | propertyUnknown
  /-- Digits, white space and letters are known of ASCII only. -/
  | classUnknown
  /-- Case is known of ASCII letters only. -/
  | caseUnknown
  /-- The expression is about bytes, and matches some that are no text. -/
  | notText
  /-- The expression is about bytes, and names a character that is none. -/
  | notByte
  deriving DecidableEq

def Fault.message : Fault → String
  | classEscapeInvalid => "invalid escape sequence found in character class"
  | classRangeInvalid => "invalid character class range, the start must be <= the end"
  | classRangeLiteral => "invalid range boundary, must be a literal"
  | classUnclosed => "unclosed character class"
  | decimalInvalid => "decimal literal invalid"
  | hexEmpty => "hexadecimal literal empty"
  | hexInvalid => "hexadecimal literal is not a Unicode scalar value"
  | hexDigitInvalid => "invalid hexadecimal digit"
  | escapeUnfinished => "incomplete escape sequence, reached end of pattern prematurely"
  | escapeUnknown => "unrecognized escape sequence"
  | flagDanglingNegation => "dangling flag negation operator"
  | flagDuplicate => "duplicate flag"
  | flagRepeatedNegation => "flag negation operator repeated"
  | flagUnfinished => "expected flag but got end of regex"
  | flagUnknown => "unrecognized flag"
  | groupNameDuplicate => "duplicate capture group name"
  | groupNameEmpty => "empty capture group name"
  | groupNameInvalid => "invalid capture group character"
  | groupNameUnfinished => "unclosed capture group name"
  | groupUnclosed => "unclosed group"
  | groupUnopened => "unopened group"
  | countInvalid => "invalid repetition count range, the start must be <= the end"
  | countEmpty => "repetition quantifier expects a valid decimal"
  | countUnclosed => "unclosed counted repetition"
  | nothingToRepeat => "repetition operator missing expression"
  | backreference => "backreferences are not supported"
  | lookAround => "look-around, including look-ahead and look-behind, is not supported"
  | propertyMalformed => "invalid Unicode character class"
  | propertyUnknown => "Unicode property not found"
  | classUnknown =>
    "Unicode-aware Perl class not found (make sure the unicode-perl feature is enabled)"
  | caseUnknown => "Unicode-aware case insensitivity matching is not available " ++
      "(make sure the unicode-case feature is enabled)"
  | notText => "pattern can match invalid UTF-8"
  | notByte => "Unicode not allowed here"

/-- A part of an expression, from one offset up to another. -/
structure Span where
  start : Nat
  stop : Nat
  deriving DecidableEq

inductive Error where
  /-- There is a fault in some parts of the expression, which are given in order. -/
  | located (fault : Fault) (spans : List Span)
  /-- The edges of words are asked for, and letters are known of ASCII only. -/
  | wordEdges
  deriving DecidableEq

namespace Error

def inPart (fault : Fault) (start stop : Nat) : Error := .located fault [{ start, stop }]

/-- A line that marks the given parts of the line above, each with one mark at least. -/
def marks (spans : List Span) : Word :=
  spans.foldl (fun line s => line ++ List.replicate (s.start - line.length) ' ' ++
    List.replicate (max 1 (s.stop - s.start)) '^') []

def message (source : Word) : Error → Word
  | located fault spans =>
    let indent := "\n    ".toList
    "regex parse error:".toList ++ indent ++ source ++ indent ++ marks spans ++
      "\nerror: ".toList ++ fault.message.toList
  | wordEdges => "error building NFA".toList

end Error

end Regex
end SemiThue
