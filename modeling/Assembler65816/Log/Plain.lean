import Assembler65816.Text.Basic

/-! # Plain text

The log is written without terminal control. Control sequences are taken out, from the escape
character to the end that the kind of sequence has, and so are control characters other than blanks.
-/

namespace Assembler65816.Log

inductive Terminal where
  | ground
  | escape
  | escapeEnd
  /-- The end of a control sequence, `ESC [`. -/
  | control
  /-- The header of a device control string, `ESC P`, at one of its three stages. -/
  | deviceEntry
  | deviceParameter
  | deviceIntermediate
  /-- More of a string; a string terminator ends it. -/
  | string
  /-- More of a system command, `ESC ]`; a bell ends it. -/
  | command
  deriving DecidableEq, Repr

def holdsTerminator (c : Char) : Bool :=
  0x80 ≤ c.toNat && (c.toString.toUTF8.data.contains 0x9c)

def isShown (c : Char) : Bool :=
  isAsciiBlank c || 0x80 ≤ c.toNat || (0x20 ≤ c.toNat && c.toNat ≤ 0x7e)

def isIntermediate (c : Char) : Bool := 0x20 ≤ c.toNat && c.toNat ≤ 0x2f

def isParameter (c : Char) : Bool := 0x30 ≤ c.toNat && c.toNat ≤ 0x3f

def isFinal (c : Char) : Bool := 0x40 ≤ c.toNat && c.toNat ≤ 0x7e

namespace Terminal

def afterEscape (c : Char) : Terminal :=
  if c == '[' then control
  else if c == ']' then command
  else if c == 'P' then deviceEntry
  else if c == 'X' || c == '^' || c == '_' then string
  else if isIntermediate c then escapeEnd
  else if isParameter c || isFinal c then ground
  else escape

/-- A cancel or substitute character ends every sequence, and an escape character opens a new
one. -/
def next (t : Terminal) (c : Char) : Terminal :=
  if c == '\x18' || c == '\x1a' then ground
  else if c == '\x1b' then escape
  else
    match t with
    | ground => ground
    | escape => afterEscape c
    | escapeEnd => if isParameter c || isFinal c then ground else escapeEnd
    | control => if isFinal c then ground else control
    | deviceEntry =>
      if isFinal c then string
      else if isParameter c then deviceParameter
      else if isIntermediate c then deviceIntermediate
      else deviceEntry
    | deviceParameter =>
      if isFinal c || ('<' ≤ c && c ≤ '?') then string
      else if isIntermediate c then deviceIntermediate
      else deviceParameter
    | deviceIntermediate => if isFinal c || isParameter c then string else deviceIntermediate
    | string => if holdsTerminator c then ground else string
    | command => if c == '\x07' then ground else command

/-- Whether a character is shown. Escape and control sequences let blank control characters
through. -/
def shows (t : Terminal) (c : Char) : Bool :=
  match t with
  | ground => isShown c
  | escape | escapeEnd | control => isAsciiBlank c && c != ' '
  | _ => false

end Terminal

/-- The shown characters of a text. A sequence that has let a blank through is suspended: what
follows is shown as outside sequences, up to the next character that would not be. -/
def shownFrom (t : Terminal) (suspended : Bool) : Text → Text
  | [] => []
  | c :: rest =>
    if suspended && isShown c then
      c :: shownFrom (if c.toNat < 0x80 then t else .ground) true rest
    else if t.shows c then c :: shownFrom (t.next c) true rest
    else shownFrom (t.next c) false rest

def plain (t : Text) : Text := shownFrom .ground false t

end Assembler65816.Log
