import Assembler65816.Expression.Operator
import Assembler65816.Fault
import Assembler65816.Text.Escape
import Assembler65816.Text.Name
import Assembler65816.Text.Numeral
import Assembler65816.Text.Quote

/-! # Atoms

An atom is an optional byte selector followed by a numeral, a character literal, the location
counter or a symbol name. Reading stops at an obstacle: a fault, a name that is not in the table,
or a symbol whose value is still pending. An obstacle ends the whole expression around it.
-/

namespace Assembler65816.Expression

inductive Obstacle where
  | fault (cause : Fault)
  | missing (name : Text)
  | pending
  deriving DecidableEq, Repr

abbrev Reading := Except Obstacle UInt32

namespace Atom

/-- A numeral in the given radix; `text` is the whole atom, for the report. -/
def number (radix : Nat) (digits text : Text) : Reading :=
  match Numeral.word? radix digits with
  | some word => .ok word
  | none => .error (.fault (.badNumber text))

def literal (mark : Char) (rest text : Text) : Reading :=
  if rest.length < 2 || rest.getLast? != some mark then .error (.fault (.openQuote text))
  else
    match (Escape.decode rest.dropLast).head? with
    | some c => .ok c.val
    | none => .error (.fault (.missingOperand text))

def symbol (env : Env) (name : Text) : Reading :=
  match env.lookup name with
  | some (.known word) => .ok word
  | some .unresolved => .error .pending
  | none => .error (.missing name)

def counter (env : Env) (text : Text) : Reading :=
  match env.address with
  | some address => .ok address
  | none => .error (.fault (.counterUnset text))

/-- An atom without its selector; `text` is the atom with it. -/
def body (env : Env) (text : Text) : Text → Reading
  | [] => .error (.fault (.missingOperand text))
  | c :: rest =>
    if c.isDigit then number 10 (c :: rest) text
    else if c == '$' then
      if rest.isEmpty then counter env text else number 16 rest text
    else if c == '%' then number 2 rest text
    else if c == '&' then number 8 rest text
    else if isQuoteMark c then literal c rest text
    else if isSymbolName (c :: rest) then symbol env (c :: rest)
    else .error (.fault (.badNumber text))

def read (env : Env) (text : Text) : Reading :=
  match Text.trim text with
  | [] => .error (.fault .nothingToRead)
  | c :: rest =>
    match Selector.ofChar? c with
    | some selector => (body env (c :: rest) rest).map selector.select
    | none => body env (c :: rest) (c :: rest)

end Atom

end Assembler65816.Expression
