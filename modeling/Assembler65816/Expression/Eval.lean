import Assembler65816.Expression.Polish

/-! # Evaluation

Chains and reverse Polish groups nest in one another. Wherever a chain is expected, a text that is
as a whole the name of a symbol has that symbol's value; otherwise it is read as a chain. Groups
are shorter than the text around them, so the length of the text bounds the nesting.
-/

namespace Assembler65816.Expression

def valueOf : Value → Reading
  | .known word => .ok word
  | .unresolved => .error .pending

def enclosedBody? (t : Text) : Option Text :=
  if t.head? = some '(' && parentheses.groupLength t == some t.length then some (inner t) else none

def evalWithin (env : Env) : Nat → Form → Text → Reading
  | 0, _, text => .error (.fault (.unterminated text))
  | depth + 1, .polish, text => Polish.eval (evalWithin env depth) text
  | depth + 1, .chain, text =>
    match env.lookup (Text.trim text) with
    | some value => valueOf value
    | none => Chain.eval env (evalWithin env depth) (Text.trim text)
  | depth + 1, .enclosed, text =>
    match env.lookup (Text.trim text) with
    | some value => valueOf value
    | none =>
      match enclosedBody? (Text.trim text) with
      | some body => Chain.eval env (evalWithin env depth) body
      | none => .error (.fault (.unterminated (Text.trim text)))

def evalForm (env : Env) (form : Form) (text : Text) : Reading :=
  evalWithin env (text.length + 2) form text

def eval (env : Env) (text : Text) : Reading := evalForm env .chain text

end Assembler65816.Expression
