import Assembler65816.Text.Lines

/-! # Faults of regular expressions

A fault names its cause and the part of the expression that it is about. Its report shows the
expression with that part marked below it.
-/

namespace Assembler65816.Regex

structure Span where
  start : Nat
  stop : Nat
  deriving DecidableEq, Repr

inductive Cause where
  | classEscape
  | classRange
  | classRangeBound
  | classUnclosed
  | decimalInvalid
  | hexEmpty
  | hexInvalid
  | hexDigit
  | escapeCut
  | escapeUnknown
  | flagDangling
  | flagTwice
  | flagNegatedTwice
  | flagCut
  | flagUnknown
  | nameTwice
  | nameEmpty
  | nameCharacter
  | nameCut
  | groupUnclosed
  | groupUnopened
  | countOrder
  | countEmpty
  | countUnclosed
  | nothingToRepeat
  | boundaryUnclosed
  | boundaryUnknown
  | boundaryCut
  | propertyInvalid
  | propertyUnknown
  | backreference
  | lookAround
  | propertyValueUnknown
  | letterClass
  | letterCase
  | notAscii
  | notUtf8
  | wideBoundary
  deriving DecidableEq, Repr

def Cause.message : Cause → String
  | .classEscape => "invalid escape sequence found in character class"
  | .classRange => "invalid character class range, the start must be <= the end"
  | .classRangeBound => "invalid range boundary, must be a literal"
  | .classUnclosed => "unclosed character class"
  | .decimalInvalid => "decimal literal invalid"
  | .hexEmpty => "hexadecimal literal empty"
  | .hexInvalid => "hexadecimal literal is not a Unicode scalar value"
  | .hexDigit => "invalid hexadecimal digit"
  | .escapeCut => "incomplete escape sequence, reached end of pattern prematurely"
  | .escapeUnknown => "unrecognized escape sequence"
  | .flagDangling => "dangling flag negation operator"
  | .flagTwice => "duplicate flag"
  | .flagNegatedTwice => "flag negation operator repeated"
  | .flagCut => "expected flag but got end of regex"
  | .flagUnknown => "unrecognized flag"
  | .nameTwice => "duplicate capture group name"
  | .nameEmpty => "empty capture group name"
  | .nameCharacter => "invalid capture group character"
  | .nameCut => "unclosed capture group name"
  | .groupUnclosed => "unclosed group"
  | .groupUnopened => "unopened group"
  | .countOrder => "invalid repetition count range, the start must be <= the end"
  | .countEmpty => "repetition quantifier expects a valid decimal"
  | .countUnclosed => "unclosed counted repetition"
  | .nothingToRepeat => "repetition operator missing expression"
  | .boundaryUnclosed =>
    "special word boundary assertion is either unclosed or contains an invalid character"
  | .boundaryUnknown =>
    "unrecognized special word boundary assertion, " ++
      "valid choices are: start, end, start-half or end-half"
  | .boundaryCut =>
    "found either the beginning of a special word boundary or a bounded repetition " ++
      "on a \\b with an opening brace, but no closing brace"
  | .propertyInvalid => "invalid Unicode character class"
  | .propertyUnknown => "Unicode property not found"
  | .backreference => "backreferences are not supported"
  | .lookAround => "look-around, including look-ahead and look-behind, is not supported"
  | .propertyValueUnknown => "Unicode property value not found"
  | .letterClass =>
    "Unicode-aware Perl class not found (make sure the unicode-perl feature is enabled)"
  | .letterCase =>
    "Unicode-aware case insensitivity matching is not available " ++
      "(make sure the unicode-case feature is enabled)"
  | .notAscii => "Unicode not allowed here"
  | .notUtf8 => "pattern can match invalid UTF-8"
  | .wideBoundary => "error building NFA"

structure Fault where
  cause : Cause
  span : Span
  other : Option Span := none
  deriving DecidableEq, Repr

def place (pattern : Text) (position : Nat) : Nat × Nat :=
  let before := pattern.take position
  (before.count '\n', (before.reverse.takeWhile (· != '\n')).length)

def marks (column : Nat) : List (Nat × Nat) → Text
  | [] => []
  | (start, stop) :: more =>
    let width := max 1 (stop - start)
    List.replicate (start - column) ' ' ++ List.replicate width '^' ++
      marks (max column start + width) more

def Span.before (s t : Span) : Bool :=
  s.start < t.start || (s.start == t.start && s.stop ≤ t.stop)

def Fault.spans (f : Fault) : List Span :=
  match f.other with
  | none => [f.span]
  | some other => if f.span.before other then [f.span, other] else [other, f.span]

def columnsIn (pattern : Text) (line : Nat) (spans : List Span) : List (Nat × Nat) :=
  spans.filterMap fun span =>
    let (startLine, start) := place pattern span.start
    let (stopLine, stop) := place pattern span.stop
    if startLine = line && stopLine = line then some (start, stop) else none

/-- The lines of an expression, each behind its margin and with the marks below it. -/
def annotated (pattern : Text) (spans : List Span) (numberWidth : Nat) : List Text :=
  let margin := if numberWidth = 0 then 4 else numberWidth + 2
  (Text.lines pattern).zipIdx.flatMap fun (line, i) =>
    let number := (Nat.repr (i + 1)).toList
    let head :=
      if numberWidth = 0 then List.replicate 4 ' '
      else List.replicate (numberWidth - number.length) ' ' ++ number ++ [':', ' ']
    match columnsIn pattern i spans with
    | [] => [head ++ line]
    | columns => [head ++ line, List.replicate margin ' ' ++ marks 0 columns]

def acrossLines (pattern : Text) (span : Span) : Option String :=
  let (startLine, start) := place pattern span.start
  let (stopLine, stop) := place pattern span.stop
  if startLine = stopLine then none
  else
    some ("on line " ++ Nat.repr (startLine + 1) ++ " (column " ++ Nat.repr (start + 1) ++
      ") through line " ++ Nat.repr (stopLine + 1) ++ " (column " ++ Nat.repr stop ++ ")")

/-- The lines of a report. An expression of several lines stands between two rules and has its
lines numbered. -/
def Fault.reportLines (pattern : Text) (f : Fault) : List String :=
  let last := "error: " ++ f.cause.message
  if '\n' ∈ pattern then
    let rule := String.ofList (List.replicate 79 '~')
    let lines := (Text.lines pattern).length + (if pattern.getLast? = some '\n' then 1 else 0)
    let shown := annotated pattern f.spans (Nat.repr lines).length
    ["regex parse error:", rule] ++ shown.map String.ofList ++ [rule] ++
      f.spans.filterMap (acrossLines pattern) ++ [last]
  else
    ["regex parse error:"] ++ (annotated pattern f.spans 0).map String.ofList ++ [last]

/-- The report of a fault. A boundary that cannot be told is found too late to be shown in the
expression. -/
def Fault.report (pattern : Text) (f : Fault) : String :=
  if f.cause = .wideBoundary then f.cause.message else "\n".intercalate (f.reportLines pattern)

end Assembler65816.Regex
