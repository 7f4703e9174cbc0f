import Assembler65816.Regex.Class

/-! # Reading regular expressions

Groups, repetitions and alternatives. Open groups stand on a stack, each with the branches around
it and the flags that are in force again behind it.
-/

namespace Assembler65816.Regex

open Read

structure Branches where
  finished : List Regex := []
  /-- The items of the branch in hand, last first. A change of flags is an item that matches
  nothing and cannot be repeated. -/
  items : List (Option Regex) := []

namespace Branches

def add (b : Branches) (r : Regex) : Branches := { b with items := some r :: b.items }

def branch (b : Branches) : Regex := .concat (b.items.reverse.filterMap id)

def next (b : Branches) : Branches := { finished := b.branch :: b.finished }

def close (b : Branches) : Regex :=
  match (b.branch :: b.finished).reverse with
  | [] => .empty
  | first :: more => .oneOf first more

end Branches

structure OpenGroup where
  opened : Span
  outside : Branches
  flags : Flags

def isNameChar (first : Bool) (c : Char) : Bool :=
  c == '_' || c.isAlpha || 0x80 ≤ c.toNat ||
    (!first && (c.isDigit || c == '.' || c == '[' || c == ']'))

def groupNameChars (first : Bool) : Nat → Read Text
  | 0 => return []
  | n + 1 => do
    let here ← position
    match ← peek with
    | none => refuse .nameCut here here
    | some c =>
      if c == '>' then return []
      if !isNameChar first c then refuse .nameCharacter here (here + 1)
      bump
      return c :: (← groupNameChars false n)

/-- The name of a group. No two groups share one. -/
def groupName : Read Unit := do
  let start ← position
  let name ← groupNameChars true ((← get).rest.length + 1)
  let span : Span := ⟨start, ← position⟩
  bump
  if name.isEmpty then refuse .nameEmpty start start
  match (← get).names.lookup name with
  | some earlier => throw ⟨.nameTwice, span, some earlier⟩
  | none => modify fun s => { s with names := (name, span) :: s.names }

/-- Reads flags up to the mark that ends them. `seen` holds the earlier ones, last first; a minus
sign is no flag. -/
def flagItems (seen : List (Option Flag × Span)) : Nat → Read (List (Option Flag × Span))
  | 0 => return seen
  | n + 1 => do
    let here ← position
    let span : Span := ⟨here, here + 1⟩
    match ← peek with
    | none => refuse .flagCut here here
    | some ')' | some ':' =>
      match seen with
      | (none, dash) :: _ => refuse .flagDangling dash.start dash.stop
      | _ => return seen
    | some c =>
      let item ←
        if c == '-' then pure none
        else
          match Flag.ofChar? c with
          | some flag => pure (some flag)
          | none => refuse .flagUnknown here (here + 1)
      match seen.lookup item with
      | some earlier =>
        throw ⟨if item.isNone then .flagNegatedTwice else .flagTwice, span, some earlier⟩
      | none =>
        bump
        flagItems ((item, span) :: seen) n

/-- The flags after the items in reading order; those after a minus sign are taken away. -/
def applyFlags (flags : Flags) (items : List (Option Flag)) : Flags :=
  (items.foldl (fun (flags, value) item =>
    match item with
    | some flag => (flag.set value flags, value)
    | none => (flags, false)) (flags, true)).1

/-- Opens a group, or changes the flags; the parenthesis comes next. -/
def openGroup (b : Branches) (stack : List OpenGroup) : Read (Branches × List OpenGroup) := do
  let start ← position
  let opened : Span := ⟨start, start + 1⟩
  bumpSpace
  if (← accept "?=") || (← accept "?!") || (← accept "?<=") || (← accept "?<!") then
    refuse .lookAround start (← position)
  let inner ← position
  let outer ← flags
  if (← accept "?P<") || (← accept "?<") then
    groupName
    return ({}, ⟨opened, b, outer⟩ :: stack)
  else if ← accept "?" then
    if ← atEnd then refuse .groupUnclosed start (start + 1)
    let items ← flagItems [] ((← get).rest.length + 1)
    let new := applyFlags outer (items.reverse.map (·.1))
    modify fun s => { s with flags := new }
    if ← accept ")" then
      if items.isEmpty then refuse .nothingToRepeat inner inner
      return ({ b with items := none :: b.items }, stack)
    else
      bump
      return ({}, ⟨opened, b, outer⟩ :: stack)
  else return ({}, ⟨opened, b, outer⟩ :: stack)

/-- Closes a group; the parenthesis comes next. -/
def closeGroup (b : Branches) : List OpenGroup → Read (Branches × List OpenGroup)
  | [] => do refuse .groupUnopened (← position) ((← position) + 1)
  | group :: more => do
    modify fun s => { s with flags := group.flags }
    bump
    return (group.outside.add b.close, more)

def repeatLast (b : Branches) (here least : Nat) (most : Option Nat) : Read Branches :=
  match b.items with
  | some r :: more => return { b with items := some (.repeated r least most) :: more }
  | _ => refuse .nothingToRepeat here here

/-- A question mark after a repetition changes which match is preferred, not whether there is
one. -/
def skipPreference : Read Unit := do
  let _ ← accept "?"

/-- A decimal number of a repetition. Its fault may yet give way to another one. -/
def count : Read (Except Fault Nat) := do
  skipBlanks
  let start ← position
  let digits ← word Char.isDigit
  let stop ← position
  skipBlanks
  if digits.isEmpty then return .error ⟨.countEmpty, ⟨start, stop⟩, none⟩
  match Numeral.word? 10 digits with
  | some n => return .ok n.toNat
  | none => return .error ⟨.decimalInvalid, ⟨start, stop⟩, none⟩

def countOrThrow : Except Fault Nat → Read Nat
  | .ok n => return n
  | .error fault => throw fault

def countBounds (start : Nat) : Read (Nat × Option Nat) := do
  let first ← count
  if ← atEnd then refuse .countUnclosed start (← position)
  if ← sees "," then
    bumpSpace
    if ← atEnd then refuse .countUnclosed start (← position)
    if ← sees "\x7d" then return (← countOrThrow first, none)
    let least ← countOrThrow first
    return (least, some (← countOrThrow (← count)))
  else
    let times ← countOrThrow first
    return (times, some times)

/-- A counted repetition; its opening brace comes next. -/
def counted (b : Branches) : Read Branches := do
  let start ← position
  let _ ← repeatLast b start 0 none
  bumpSpace
  if ← atEnd then refuse .countUnclosed start (← position)
  let (least, most) ← countBounds start
  if !(← sees "\x7d") then refuse .countUnclosed start (← position)
  bumpSpace
  skipPreference
  if most.any (· < least) then refuse .countOrder start (← position)
  repeatLast b start least most

def lineLook (flags : Flags) (text line crlf : Look) : Look :=
  if !flags.multiLine then text else if flags.crlf then crlf else line

def primitive (c : Char) : Read Primitive := do
  let here ← position
  let f ← flags
  match c with
  | '\\' => escape
  | '.' =>
    bump
    if !f.unicode then giveUp .notUtf8 ⟨here, here + 1⟩
    return .set fun c => f.dotAll || (c != '\n' && !(f.crlf && c == '\r'))
  | '^' =>
    bump
    return .look (lineLook f .textStart .lineStart .crlfStart)
  | '$' =>
    bump
    return .look (lineLook f .textEnd .lineEnd .crlfEnd)
  | _ =>
    bump
    return .literal c false

/-- The expression of a primitive and the part that writes it. Case can be ignored for ASCII letters
only, and words are told by them only. -/
def ofPrimitive (span : Span) : Primitive → Read Regex
  | .literal c byte => do
    if !(← flags).unicode && byte && 0x80 ≤ c.toNat then giveUp .notUtf8 span
    return .one (← Written.folded ⟨.single c, some span⟩)
  | .set s => return .one s
  | .look condition => do
    if (← flags).unicode && condition.isAboutWords then giveUpSearch span
    return .look condition

def part (c : Char) (b : Branches) (stack : List OpenGroup) :
    Read (Branches × List OpenGroup) := do
  let once (least : Nat) (most : Option Nat) : Read (Branches × List OpenGroup) := do
    let b ← repeatLast b (← position) least most
    bump
    skipPreference
    return (b, stack)
  match c with
  | '(' => openGroup b stack
  | ')' => closeGroup b stack
  | '|' =>
    bump
    return (b.next, stack)
  | '[' => return (b.add (.one (← bracketClass)), stack)
  | '?' => once 0 (some 1)
  | '*' => once 0 none
  | '+' => once 1 none
  | '\x7b' => return (← counted b, stack)
  | _ =>
    let start ← position
    let p ← primitive c
    return (b.add (← ofPrimitive ⟨start, ← position⟩ p), stack)

/-- Reads an expression to its end. Every part takes at least one character. -/
def body (b : Branches) (stack : List OpenGroup) : Nat → Read Regex
  | 0 => return b.close
  | n + 1 => do
    skipSpace
    match ← peek with
    | none =>
      match stack with
      | [] => return b.close
      | group :: _ => refuse .groupUnclosed group.opened.start group.opened.stop
    | some c =>
      let (b, stack) ← part c b stack
      body b stack n

def read (t : Text) : Except Fault Regex := do
  let (r, scan) ← (body {} [] (t.length + 1)).run { rest := t }
  match scan.meaningless.or scan.unsearchable with
  | none => return r
  | some fault => throw fault

end Assembler65816.Regex
