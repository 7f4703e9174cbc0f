import Assembler65816.Trace

/-! # Evaluation with signals

The evaluator that a line runs. Wherever it comes upon a symbol without a value it asks for another
pass, and then the expression has no value: at a text that is as a whole the name of a symbol, at an
operand of a chain, at each of the two kinds of groups in a chain, and at a token of a reverse
Polish group. A name that is not in the table is noted where it is looked up.
-/

namespace Assembler65816.Tracing

open Expression

def symbol (env : Env) (name : Text) : Tracing Value :=
  match env.lookup name with
  | some value => pure value
  | none => do
    miss name
    pure .unresolved

/-- A step that looks up no symbol, and so comes to an answer or to a fault. -/
def plain {α : Type} : Except Obstacle α → OptionT Tracing α
  | .ok answer => pure answer
  | .error (.fault cause) => throwThe Fault cause
  | .error _ => failure

/-- The word of a value. Without one the expression ends here and asks for another pass. -/
def force : Value → OptionT Tracing UInt32
  | .known word => pure word
  | .unresolved => do
    defer
    failure

def settle (x : OptionT Tracing UInt32) : Tracing Value := Value.ofOption <$> x.run

/-- An atom without its selector. A symbol that waits for its value is no reason to signal yet. -/
def atomBody (env : Env) (text body : Text) : Tracing Value :=
  if isSymbolName body then symbol env body else settle (plain (Atom.body env text body))

def atom (env : Env) (text : Text) : Tracing Value :=
  match Text.trim text with
  | [] => throw .nothingToRead
  | c :: rest =>
    match Selector.ofChar? c with
    | some selector => Value.map selector.select <$> atomBody env (c :: rest) rest
    | none => atomBody env (c :: rest) (c :: rest)

section Chain

variable (env : Env) (read : Form → Text → Tracing Value) (body : Text)

def operand (s : Chain.State) : OptionT Tracing (Option UInt32) :=
  match s.group, s.term with
  | group, [] => pure group
  | none, term => do return some (← force (← atom env term))
  | some _, term => throwThe Fault (.textAfterGroup term)

def flush (next : Option Operator) (s : Chain.State) : OptionT Tracing Chain.State := do
  let total ← plain (s.combine (← operand env s))
  return { total, operator := next <|> s.operator }

def step (s : Chain.State) : Chain.Item → OptionT Tracing Chain.State
  | .operator op => flush env (some op) s
  | .piece text => pure { s with term := s.term ++ text }
  | .parens group => do plain (s.closeGroup body (← force (← read .enclosed group)))
  | .braces inside => do plain (s.closeGroup body (← force (← read .polish inside)))
  | .fault cause => throwThe Fault cause

def chain : OptionT Tracing UInt32 := do
  let last ← (Chain.items body 0 body).foldlM (step env read body) {}
  return (← flush env none last).total

end Chain

section Polish

variable (read : Form → Text → Tracing Value) (whole : Text)

def polishOperand (token : Text) : Tracing Value :=
  if token.head? = some '{' then read .polish (inner token)
  else if token.head? = some '(' then read .enclosed token
  else read .chain token

def polishStep (stack : List UInt32) (token : Text) : OptionT Tracing (List UInt32) :=
  match Operator.ofText? token with
  | some op => plain (Polish.operate whole op stack)
  | none => do return (← force (← polishOperand read token)) :: stack

def polish : OptionT Tracing UInt32 :=
  match Polish.tokens whole with
  | .error cause => throwThe Fault cause
  | .ok tokens => do plain (Polish.result whole (← tokens.foldlM (polishStep read whole) []))

end Polish

def evalWithin (env : Env) : Nat → Form → Text → Tracing Value
  | 0, _, text => throw (.unterminated text)
  | depth + 1, .polish, text => settle (polish (evalWithin env depth) text)
  | depth + 1, .chain, text =>
    match env.lookup (Text.trim text) with
    | some value => settle (force value)
    | none => settle (chain env (evalWithin env depth) (Text.trim text))
  | depth + 1, .enclosed, text =>
    match env.lookup (Text.trim text) with
    | some value => settle (force value)
    | none =>
      match enclosedBody? (Text.trim text) with
      | some body => settle (chain env (evalWithin env depth) body)
      | none => throw (.unterminated (Text.trim text))

def evalForm (env : Env) (form : Form) (text : Text) : Tracing Value :=
  evalWithin env (text.length + 2) form text

def eval (env : Env) (text : Text) : Tracing Value := evalForm env .chain text

end Assembler65816.Tracing
