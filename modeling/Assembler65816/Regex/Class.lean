import Assembler65816.Regex.Escape

/-! # Classes in brackets

A class is a union of characters, ranges and classes. Unions are combined from left to right by
intersection, difference and symmetric difference. Open classes stand on a stack. Where case is
ignored, both cases of letters count before a class is negated.
-/

namespace Assembler65816.Regex

open Read

def namedSet : String → Option CharSet
  | "alnum" => some Char.isAlphanum
  | "alpha" => some Char.isAlpha
  | "ascii" => some fun c => c.toNat < 0x80
  | "blank" => some fun c => c == ' ' || c == '\t'
  | "cntrl" => some fun c => c.toNat < 0x20 || c == '\x7f'
  | "digit" => some Char.isDigit
  | "graph" => some (.range '!' '~')
  | "lower" => some Char.isLower
  | "print" => some (.range ' ' '~')
  | "punct" => some fun c => CharSet.range '!' '~' c && !c.isAlphanum
  | "space" => some fun c => isAsciiBlank c || c == '\x0b'
  | "upper" => some Char.isUpper
  | "word" => some .word
  | "xdigit" => some isHex
  | _ => none

/-- An ASCII class such as `[:alpha:]` at the front of a text: its set, whether it is negated, and
the length of what it takes. -/
def namedClass? (t : Text) : Option (CharSet × Bool × Nat) :=
  match t with
  | '[' :: ':' :: rest =>
    let negated := rest.head? == some '^'
    let rest := if negated then rest.tail else rest
    let name := rest.takeWhile (· != ':')
    match rest.drop name.length with
    | ':' :: ']' :: _ =>
      (namedSet (String.ofList name)).map fun set =>
        (set, negated, name.length + (if negated then 5 else 4))
    | _ => none
  | _ => none

inductive SetOperator where
  | inter
  | diff
  | symmDiff
  deriving DecidableEq, Repr

def SetOperator.apply (s t : CharSet) : SetOperator → CharSet
  | inter => s.inter t
  | diff => s.diff t
  | symmDiff => s.symmDiff t

/-- A set and the part of the expression that writes it; an empty union is written by none. -/
structure Written where
  set : CharSet := .none
  span : Option Span := none

namespace Written

def add (w : Written) (set : CharSet) (span : Span) : Written :=
  ⟨w.set.union set, some ⟨(w.span.getD span).start, span.stop⟩⟩

def join (left right : Option Span) : Option Span :=
  match left, right with
  | some l, some r => some ⟨l.start, r.stop⟩
  | l, r => l.or r

/-- The set with both cases of its letters where case is ignored; only those of ASCII are known. -/
def folded (w : Written) : Read CharSet := do
  let f ← flags
  if !f.ignoreCase then return w.set
  if f.unicode then
    match w.span with
    | some span => giveUp .letterCase span
    | none => pure ()
  return w.set.foldCase

/-- Both cases of the letters of a class, then all other characters if it is negated. Of bytes, all
others are no text. -/
def foldAndNegate (w : Written) (negated : Bool) (span : Span) : Read CharSet := do
  let set ← folded { w with span := w.span.map fun _ => span }
  if negated then
    if !(← flags).unicode then giveUp .notUtf8 span
    return set.compl
  else return set

end Written

structure OpenClass where
  opened : Span
  negated : Bool
  /-- The sets before the last operator, and that operator. -/
  left : Option (Written × SetOperator) := none
  items : Written := {}

namespace OpenClass

def add (k : OpenClass) (set : CharSet) (span : Span) : OpenClass :=
  { k with items := k.items.add set span }

def written (k : OpenClass) : Read Written := do
  match k.left with
  | none => return k.items
  | some (left, operator) =>
    let second ← k.items.folded
    let first ← left.folded
    return ⟨operator.apply first second, Written.join left.span k.items.span⟩

def operator (k : OpenClass) (op : SetOperator) : Read OpenClass := do
  return { k with left := some (← k.written, op), items := {} }

def close (k : OpenClass) (stop : Nat) : Read CharSet := do
  (← k.written).foldAndNegate k.negated ⟨k.opened.start, stop⟩

end OpenClass

def leadingDashes (start : Nat) (items : Written) : Nat → Read Written
  | 0 => return items
  | n + 1 => do
    if !(← sees "-") then return items
    let here ← position
    bumpSpace
    if ← atEnd then refuse .classUnclosed start start
    leadingDashes start (items.add (.single '-') ⟨here, here + 1⟩) n

/-- Opens a class; its bracket comes next. -/
def openClass : Read OpenClass := do
  let start ← position
  bumpSpace
  if ← atEnd then refuse .classUnclosed start (← position)
  let negated ← sees "^"
  if negated then
    bumpSpace
    if ← atEnd then refuse .classUnclosed start (← position)
  let mut items ← leadingDashes start {} (← get).rest.length
  if items.span.isNone && (← sees "]") then
    let here ← position
    items := items.add (.single ']') ⟨here, here + 1⟩
    bumpSpace
    if ← atEnd then refuse .classUnclosed start (← position)
  return { opened := ⟨start, ← position⟩, negated, items }

def classItem : Read (Primitive × Span) := do
  let start ← position
  match ← peek with
  | some '\\' =>
    let item ← escape
    return (item, ⟨start, ← position⟩)
  | some c =>
    bump
    return (.literal c false, ⟨start, start + 1⟩)
  | none => return (.set .none, ⟨start, start⟩)

def rangeBound : Primitive × Span → Read (Char × Bool)
  | (.literal c byte, _) => return (c, byte)
  | (_, span) => refuse .classRangeBound span.start span.stop

def checkMember (c : Char) (byte : Bool) (span : Span) : Read Unit := do
  if !(← flags).unicode && 0x80 ≤ c.toNat then giveUp (if byte then .notUtf8 else .notAscii) span

def classRange (k : OpenClass) : Read OpenClass := do
  let (first, span) ← classItem
  skipSpace
  if ← atEnd then refuse .classUnclosed k.opened.start k.opened.stop
  let next ← peekBeyond
  if !(← sees "-") || next == some ']' || next == some '-' then
    match first with
    | .literal c byte =>
      checkMember c byte span
      return k.add (.single c) span
    | .set s => return k.add s span
    | .look _ => refuse .classEscape span.start span.stop
  else
    bumpSpace
    if ← atEnd then refuse .classUnclosed k.opened.start k.opened.stop
    let (second, stop) ← classItem
    let (low, lowByte) ← rangeBound (first, span)
    let (high, highByte) ← rangeBound (second, stop)
    if high < low then refuse .classRange span.start stop.stop
    checkMember low lowByte span
    checkMember high highByte stop
    return k.add (.range low high) ⟨span.start, stop.stop⟩

def classByName (k : OpenClass) (set : CharSet) (negated : Bool) (length : Nat) :
    Read OpenClass := do
  let start ← position
  advance length
  let span : Span := ⟨start, start + length⟩
  return k.add (← Written.foldAndNegate ⟨set, some span⟩ negated span) span

def classBody (k : OpenClass) (around : List OpenClass) : Nat → Read CharSet
  | 0 => refuse .classUnclosed k.opened.start k.opened.stop
  | n + 1 => do
    skipSpace
    if ← atEnd then refuse .classUnclosed k.opened.start k.opened.stop
    if ← sees "[" then
      match namedClass? (← get).rest with
      | some (set, negated, length) => classBody (← classByName k set negated length) around n
      | none => classBody (← openClass) (k :: around) n
    else if ← accept "]" then
      let stop ← position
      let set ← k.close stop
      match around with
      | [] => return set
      | outer :: more => classBody (outer.add set ⟨k.opened.start, stop⟩) more n
    else if ← accept "&&" then classBody (← k.operator .inter) around n
    else if ← accept "--" then classBody (← k.operator .diff) around n
    else if ← accept "~~" then classBody (← k.operator .symmDiff) around n
    else classBody (← classRange k) around n

/-- A class in brackets; the opening bracket comes next. -/
def bracketClass : Read CharSet := do
  let k ← openClass
  classBody k [] ((← get).rest.length + 1)

end Assembler65816.Regex
