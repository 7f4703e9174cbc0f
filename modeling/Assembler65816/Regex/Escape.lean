import Assembler65816.Regex.Basic
import Assembler65816.Regex.Scan
import Assembler65816.Text.Numeral

/-! # Escapes in regular expressions

A backslash takes the meaning from a character, or gives a letter one: a character by its code, a
class, or a condition on a place. Classes and word boundaries are known for ASCII only.
-/

namespace Assembler65816.Regex

open Read

inductive Primitive where
  /-- A character; `byte` tells whether it was written as a byte, by two hexadecimal digits. -/
  | literal (c : Char) (byte : Bool)
  | set (s : CharSet)
  | look (condition : Look)

def isMeta (c : Char) : Bool := c ∈ "\\.+*?()|[]\x7b\x7d^$#&-~".toList

def isEscapable (c : Char) : Bool :=
  isMeta c || (c.toNat < 0x80 && !c.isAlphanum && c != '<' && c != '>')

def isHex (c : Char) : Bool := (Numeral.digit? 16 c).isSome

def charOfHex? (digits : Text) : Option Char := do
  let code ← Numeral.ofDigits? 16 digits
  if code.isValidChar then some (Char.ofNat code) else none

/-- A code between braces; the opening brace comes next. -/
def hexInBraces : Read Char := do
  let brace ← position
  let start := brace + 1
  bumpSpace
  let digits ← word isHex
  if ← atEnd then refuse .escapeCut brace (← position)
  let stop ← position
  if (← peek) != some '\x7d' then refuse .hexDigit stop (stop + 1)
  bumpSpace
  if digits.isEmpty then refuse .hexEmpty brace (← position)
  match charOfHex? digits with
  | some c => return c
  | none => refuse .hexInvalid start stop

def hexDigits : Nat → Read Text
  | 0 => return []
  | n + 1 => do
    let here ← position
    match ← peek with
    | none => refuse .escapeCut here here
    | some c =>
      if !isHex c then refuse .hexDigit here (here + 1)
      bumpSpace
      return c :: (← hexDigits n)

/-- A character by its code; the letter before the code comes next. -/
def hexLiteral (letter : Char) : Read Primitive := do
  bumpSpace
  let start ← position
  match ← peek with
  | none => refuse .escapeCut start start
  | some '\x7b' => return .literal (← hexInBraces) false
  | some _ =>
    let length := if letter == 'x' then 2 else if letter == 'u' then 4 else 8
    match charOfHex? (← hexDigits length) with
    | some c => return .literal c (letter == 'x')
    | none => refuse .hexInvalid start (← position)

def normalName (name : Text) : String :=
  let lower := Text.lower name
  let bare := if "is".toList.isPrefixOf lower then lower.drop 2 else lower
  String.ofList (bare.filter fun c => c.toNat < 0x80 && c ∉ [' ', '_', '-'])

/-- What is missing for a property. Three names are short for values of one. -/
def propertyFault (unicode : Bool) (name : Text) : Cause :=
  if !unicode then .notAscii
  else if normalName name ∈ ["cf", "sc", "lc"] then .propertyValueUnknown
  else .propertyUnknown

/-- A class by a Unicode property; the letter before its name comes next. No property is known. -/
def propertyClass (start : Nat) : Read Primitive := do
  bumpSpace
  let here ← position
  let name ←
    match ← peek with
    | none => refuse .escapeCut here here
    | some '\x7b' =>
      bumpSpace
      let name ← word (· != '\x7d')
      if ← atEnd then refuse .escapeCut (← position) (← position)
      bump
      pure name
    | some '\\' => refuse .propertyInvalid here (here + 1)
    | some c =>
      bumpSpace
      pure [c]
  giveUp (propertyFault (← flags).unicode name) ⟨start, ← position⟩
  return .set .none

def asciiClass (letter : Char) : CharSet :=
  let set : CharSet :=
    match letter.toLower with
    | 'd' => Char.isDigit
    | 's' => fun c => isAsciiBlank c || c == '\x0b'
    | _ => .word
  if letter.isUpper then set.compl else set

/-- A class by its letter. Of bytes, all others than those of an ASCII class are no text. -/
def letterClass (span : Span) (letter : Char) : Read Primitive := do
  if (← flags).unicode then giveUp .letterClass span
  else if letter.isUpper then giveUp .notUtf8 span
  return .set (asciiClass letter)

def boundaryNamed : String → Option Look
  | "start" => some .wordStart
  | "end" => some .wordEnd
  | "start-half" => some .noWordBefore
  | "end-half" => some .noWordAfter
  | _ => none

/-- A word boundary and the word in braces that may tell its kind. Braces that hold no word are
left for a repetition. -/
def wordBoundary (start : Nat) : Read Look := do
  if !(← sees "\x7b") then return .wordBoundary
  let before ← get
  let brace ← position
  bumpSpace
  let isNameChar := fun (c : Char) => c.isAlpha || c == '-'
  let contents ← position
  match ← peek with
  | none => refuse .boundaryCut start contents
  | some c =>
    if !isNameChar c then
      set before
      return .wordBoundary
    let name ← word isNameChar
    let stop ← position
    if (← peek) != some '\x7d' then refuse .boundaryUnclosed brace stop
    bump
    match boundaryNamed (String.ofList name) with
    | some condition => return condition
    | none => refuse .boundaryUnknown contents stop

/-- What a backslash and the characters after it stand for; the backslash comes next. -/
def escape : Read Primitive := do
  let start ← position
  bump
  match ← peek with
  | none => refuse .escapeCut start (← position)
  | some c =>
    if c.isDigit then refuse .backreference start ((← position) + 1)
    else if c == 'x' || c == 'u' || c == 'U' then hexLiteral c
    else if c == 'p' || c == 'P' then propertyClass start
    else
      bump
      if c ∈ "dDsSwW".toList then letterClass ⟨start, ← position⟩ c
      else if isEscapable c then return .literal c false
      else
        match c with
        | 'a' => return .literal '\x07' false
        | 'f' => return .literal '\x0c' false
        | 't' => return .literal '\t' false
        | 'n' => return .literal '\n' false
        | 'r' => return .literal '\r' false
        | 'v' => return .literal '\x0b' false
        | 'A' => return .look .textStart
        | 'z' => return .look .textEnd
        | 'b' => return .look (← wordBoundary start)
        | 'B' => return .look .noWordBoundary
        | '<' => return .look .wordStart
        | '>' => return .look .wordEnd
        | _ => refuse .escapeUnknown start (← position)

end Assembler65816.Regex
