import Assembler65816.Expression.Atom
import Assembler65816.Expression.Bracket

/-! # Operator chains

A chain is a sequence of operands with operators between them, folded strictly from left to right.
The text is first cut into items; a place where no item can be read becomes a fault item, so a
fault counts only if the fold gets there. Blanks vanish, even inside a term.
-/

namespace Assembler65816.Expression

/-- How a piece of text is to be evaluated: as a chain, as one parenthesised chain, or as the
inside of a braced group. -/
inductive Form where
  | chain
  | enclosed
  | polish
  deriving DecidableEq, Repr

namespace Chain

inductive Item where
  | operator (op : Operator)
  | piece (text : Text)
  | parens (group : Text)
  | braces (inside : Text)
  | fault (cause : Fault)
  deriving DecidableEq, Repr

/-- The operator of one character at the front of `c :: rest`. The signs that also start an atom
or select a byte are operators only before a blank or at the end. -/
def operatorAt? (c : Char) (rest : Text) : Option Operator :=
  if c == '+' || c == '-' || c == '*' || c == '/' then Operator.ofText? [c]
  else if c == '%' || c == '|' || c == '&' || c == '^' then
    if rest.head?.all isAsciiBlank then Operator.ofText? [c] else none
  else none

/-- The shift at the front of `c :: rest`: an angle bracket written twice. -/
def shiftAt? (c : Char) (rest : Text) : Option Operator :=
  if (c == '<' || c == '>') && rest.head? == some c then Operator.ofText? [c, c] else none

def items (body : Text) : Nat → Text → List Item
  | _, [] => []
  | skip + 1, _ :: rest => items body skip rest
  | 0, c :: rest =>
    if isAsciiBlank c then items body 0 rest
    else if let some op := shiftAt? c rest then .operator op :: items body 1 rest
    else if let some op := operatorAt? c rest then .operator op :: items body 0 rest
    else if isQuoteMark c then
      match (Quote.inside c).span rest with
      | some n => .piece (c :: rest.take n) :: items body n rest
      | none => [.fault (.openQuote body)]
    else if c == '(' then
      match parentheses.groupLength (c :: rest) with
      | some n => .parens ((c :: rest).take n) :: items body (n - 1) rest
      | none => [.fault (.unterminated body)]
    else if c == '{' then
      match Expression.braces.groupLength (c :: rest) with
      | some n => .braces (inner ((c :: rest).take n)) :: items body (n - 1) rest
      | none => [.fault (.unterminated body)]
    else if c == ')' || c == '}' then [.fault (.unterminated body)]
    else .piece [c] :: items body 0 rest

theorem items_skip (body : Text) (n : Nat) (t : Text) :
    items body n t = items body 0 (t.drop n) := by
  induction n generalizing t with
  | zero => rfl
  | succ n ih =>
    cases t with
    | nil => simp [items]
    | cons c rest => simpa [items] using ih rest

/-- State of the fold: the total so far, the operator in force, and the operand being read, which
is a term of plain text or the value of a group that has just closed. -/
structure State where
  total : UInt32 := 0
  operator : Option Operator := none
  term : Text := []
  group : Option UInt32 := none
  deriving DecidableEq, Repr

namespace State

/-- The operand read so far; there may be none. -/
def operand (env : Env) (s : State) : Except Obstacle (Option UInt32) :=
  match s.group, s.term with
  | group, [] => .ok group
  | none, term => (Atom.read env term).map some
  | some _, term => .error (.fault (.textAfterGroup term))

/-- The total after an operand. The first operand replaces the total. -/
def combine (s : State) : Option UInt32 → Reading
  | none => .ok s.total
  | some word =>
    match s.operator with
    | none => .ok word
    | some op =>
      match op.apply s.total word with
      | some total => .ok total
      | none => .error (.fault .divisionByZero)

def flush (env : Env) (next : Option Operator) (s : State) : Except Obstacle State := do
  let operand ← s.operand env
  let total ← s.combine operand
  return { total, operator := next <|> s.operator }

/-- Takes the value of a group as the operand. Only a selector may stand directly before it. -/
def closeGroup (body : Text) (word : UInt32) (s : State) : Except Obstacle State :=
  match s.term with
  | [] => .ok { s with group := some word }
  | [c] =>
    match Selector.ofChar? c with
    | some selector => .ok { s with term := [], group := some (selector.select word) }
    | none => .error (.fault (.badNumber body))
  | _ => .error (.fault (.badNumber body))

/-- One item of the fold; `read` evaluates the text of groups. -/
def step (env : Env) (read : Form → Text → Reading) (body : Text) (s : State) :
    Item → Except Obstacle State
  | .operator op => s.flush env (some op)
  | .piece text => .ok { s with term := s.term ++ text }
  | .parens group => do s.closeGroup body (← read .enclosed group)
  | .braces inside => do s.closeGroup body (← read .polish inside)
  | .fault cause => .error (.fault cause)

end State

/-- The value of a chain. A chain without operands is zero. -/
def eval (env : Env) (read : Form → Text → Reading) (body : Text) : Reading := do
  let last ← (items body 0 body).foldlM (State.step env read body) {}
  return (← last.flush env none).total

end Chain

end Assembler65816.Expression
