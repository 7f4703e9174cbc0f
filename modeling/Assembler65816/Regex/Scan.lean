import Assembler65816.Regex.Fault

/-! # Scanning regular expressions

An expression is read from left to right. A `Scan` holds what is left of it, the flags in force and
the names of groups. Where the verbose flag is set, space and comments between the parts are
skipped.
-/

namespace Assembler65816.Regex

structure Flags where
  ignoreCase : Bool := false
  multiLine : Bool := false
  dotAll : Bool := false
  crlf : Bool := false
  /-- Space between the parts counts for nothing, and `#` opens a comment. -/
  verbose : Bool := false
  /-- Letters and digits are not only those of ASCII. No such classes are known, so this flag must be
  taken away where one is needed. -/
  unicode : Bool := true
  deriving DecidableEq, Repr

/-- What a letter between `(?` and `)` sets. A swap of greed does not change what matches. -/
inductive Flag where
  | ignoreCase
  | multiLine
  | dotAll
  | crlf
  | verbose
  | unicode
  | swapGreed
  deriving DecidableEq, Repr

namespace Flag

def ofChar? : Char → Option Flag
  | 'i' => some ignoreCase
  | 'm' => some multiLine
  | 's' => some dotAll
  | 'R' => some crlf
  | 'x' => some verbose
  | 'u' => some unicode
  | 'U' => some swapGreed
  | _ => none

def set (value : Bool) (flags : Flags) : Flag → Flags
  | ignoreCase => { flags with ignoreCase := value }
  | multiLine => { flags with multiLine := value }
  | dotAll => { flags with dotAll := value }
  | crlf => { flags with crlf := value }
  | verbose => { flags with verbose := value }
  | unicode => { flags with unicode := value }
  | swapGreed => flags

end Flag

structure Scan where
  rest : Text
  position : Nat := 0
  flags : Flags := {}
  names : List (Text × Span) := []
  /-- The first part that is well written but has no meaning. -/
  meaningless : Option Fault := none
  /-- The first part that has a meaning but cannot be searched for. -/
  unsearchable : Option Fault := none

abbrev Read := StateT Scan (Except Fault)

namespace Read

def refuse {α : Type} (cause : Cause) (start stop : Nat) : Read α :=
  throw ⟨cause, ⟨start, stop⟩, none⟩

def position : Read Nat := return (← get).position

def flags : Read Flags := return (← get).flags

def peek : Read (Option Char) := return (← get).rest.head?

def atEnd : Read Bool := return (← get).rest.isEmpty

def sees (lead : String) : Read Bool := return lead.toList.isPrefixOf (← get).rest

def advance (n : Nat) : Read Unit :=
  modify fun s => { s with rest := s.rest.drop n, position := s.position + min n s.rest.length }

def bump : Read Unit := advance 1

def accept (lead : String) : Read Bool := do
  if ← sees lead then
    advance lead.length
    return true
  else return false

def dropSpace (inComment : Bool) : Text → Text
  | [] => []
  | c :: rest =>
    if inComment then dropSpace (c != '\n') rest
    else if isBlank c then dropSpace false rest
    else if c == '#' then dropSpace true rest
    else c :: rest

def skipSpace : Read Unit := do
  let s ← get
  if s.flags.verbose then advance (s.rest.length - (dropSpace false s.rest).length)

def bumpSpace : Read Unit := do
  bump
  skipSpace

def peekBeyond : Read (Option Char) := do
  let s ← get
  return if s.flags.verbose then (dropSpace false s.rest.tail).head? else s.rest.tail.head?

def takeWhile (test : Char → Bool) : Nat → Read Text
  | 0 => return []
  | n + 1 => do
    match (← peek).filter test with
    | none => return []
    | some c =>
      bumpSpace
      return c :: (← takeWhile test n)

def word (test : Char → Bool) : Read Text := do takeWhile test (← get).rest.length

def skipBlanks : Read Unit := do advance ((← get).rest.takeWhile isBlank).length

def giveUp (cause : Cause) (span : Span) : Read Unit :=
  modify fun s => { s with meaningless := s.meaningless.or (some ⟨cause, span, none⟩) }

/-- Notes a word boundary that is not told by ASCII alone, unless an earlier one is noted. -/
def giveUpSearch (span : Span) : Read Unit :=
  modify fun s => { s with unsearchable := s.unsearchable.or (some ⟨.wideBoundary, span, none⟩) }

end Read

end Assembler65816.Regex
