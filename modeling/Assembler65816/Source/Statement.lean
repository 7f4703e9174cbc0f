import Assembler65816.Cpu.Mnemonic
import Assembler65816.Fault
import Assembler65816.Text.Name

/-! # Statements

A line holds any number of labels and then at most one statement. A word followed by `EQU` is an
equate, whatever else the word may mean. A line that cannot be read further becomes a faulty
statement, so that the labels before the fault still count.
-/

namespace Assembler65816

inductive DataSize where
  | byte
  | word
  deriving DecidableEq, Repr

namespace DataSize

def bytes : DataSize → Nat
  | .byte => 1
  | .word => 2

def limit : DataSize → UInt32
  | .byte => 0xFF
  | .word => 0xFFFF

end DataSize

inductive Statement where
  | nothing
  | equate (name expression : Text)
  | origin (expression : Text)
  | accumulatorWidth (wide : Bool)
  | indexWidth (wide : Bool)
  | data (size : DataSize) (list : Text)
  /-- Accepted and without effect. -/
  | rom
  | instruction (mnemonic operand : Text)
  | faulty (cause : Fault)
  deriving DecidableEq, Repr

namespace Statement

def equateExpression? (rest : Text) : Option Text :=
  match Text.takeWord (Text.skipSigils rest) with
  | none => none
  | some (word, after) =>
    if Text.sameLetters word ['e', 'q', 'u'] && after.head?.all isBlank then
      some (Text.trim after)
    else none

def ofWord (word rest : Text) : Statement :=
  match equateExpression? rest with
  | some expression => .equate word expression
  | none =>
    match Text.lower word with
    | ['o', 'r', 'g'] => .origin rest
    | ['a', 'l'] => .accumulatorWidth true
    | ['a', 's'] => .accumulatorWidth false
    | ['x', 'l'] => .indexWidth true
    | ['x', 's'] => .indexWidth false
    | ['b', 'y', 't'] | ['d', 'b'] => .data .byte rest
    | ['w', 'o', 'r', 'd'] | ['d', 'w'] => .data .word rest
    | ['e', 'q', 'u'] => .faulty .equateWithoutName
    | ['r', 'o', 'm'] => .rom
    | _ =>
      if (Mnemonic.ofText? word).isSome then .instruction word rest
      else .faulty (.unknownWord word)

def ofText (t : Text) : Statement :=
  let t := Text.skipSigils (Text.skipBlanks t)
  match Text.takeWord t with
  | some (word, rest) => ofWord word (Text.trim rest)
  | none => if t.isEmpty then .nothing else .faulty (.unexpectedText t)

end Statement

structure ParsedLine where
  labels : List Text
  statement : Statement
  deriving DecidableEq, Repr

namespace ParsedLine

def label? (t : Text) : Option (Text × Text) :=
  match Text.takeWord (Text.skipSigils (Text.skipBlanks t)) with
  | some (word, ':' :: rest) => some (word, rest)
  | _ => none

def peelLabels : Nat → Text → List Text × Text
  | 0, t => ([], t)
  | limit + 1, t =>
    match label? t with
    | none => ([], t)
    | some (name, rest) =>
      let (names, rest) := peelLabels limit rest
      (name :: names, rest)

/-- Reads a line. A label takes two characters at least, so the length bounds their number. -/
def ofText (t : Text) : ParsedLine :=
  let (labels, rest) := peelLabels t.length t
  ⟨labels, Statement.ofText rest⟩

def names (line : ParsedLine) : List Text :=
  line.labels ++ match line.statement with
    | .equate name _ => [name]
    | _ => []

end ParsedLine

end Assembler65816
