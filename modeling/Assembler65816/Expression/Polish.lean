import Assembler65816.Expression.Chain

/-! # Reverse Polish groups

The inside of a braced group is a sequence of tokens, evaluated on a stack. Tokens are separated
by blanks; a bracketed group is one token and a quoted literal is never divided. All tokens are
read before any is evaluated.
-/

namespace Assembler65816.Expression.Polish

/-- Position of the token reader: passing over characters, or inside a word. -/
inductive Place where
  | skip (count : Nat)
  | word (taken : Text) (quote : Quote)
  deriving DecidableEq, Repr

/-- The tokens from a place on; `whole` is the group's text, for the report. -/
def tokensFrom (whole : Text) : Place → Text → Except Fault (List Text)
  | .skip _, [] => .ok []
  | .skip (n + 1), _ :: rest => tokensFrom whole (.skip n) rest
  | .skip 0, c :: rest =>
    if isAsciiBlank c then tokensFrom whole (.skip 0) rest
    else if c == '(' then
      match parentheses.groupLength (c :: rest) with
      | some n => (tokensFrom whole (.skip (n - 1)) rest).map ((c :: rest).take n :: ·)
      | none => .error (.unterminated whole)
    else if c == '{' then
      match braces.groupLength (c :: rest) with
      | some n => (tokensFrom whole (.skip (n - 1)) rest).map ((c :: rest).take n :: ·)
      | none => .error (.unterminated whole)
    else if c == ')' || c == '}' then .error (.unterminated whole)
    else tokensFrom whole (.word [c] (Quote.outside.step c)) rest
  | .word taken quote, [] =>
    if quote = .outside then .ok [taken] else .error (.openQuote whole)
  | .word taken quote, c :: rest =>
    if quote = .outside && isAsciiBlank c then
      (tokensFrom whole (.skip 0) rest).map (taken :: ·)
    else if quote = .outside && isBracket c then .error (.unterminated whole)
    else tokensFrom whole (.word (taken ++ [c]) (quote.step c)) rest

theorem tokensFrom_skip (whole : Text) (n : Nat) (t : Text) :
    tokensFrom whole (.skip n) t = tokensFrom whole (.skip 0) (t.drop n) := by
  induction n generalizing t with
  | zero => rfl
  | succ n ih =>
    cases t with
    | nil => simp [tokensFrom]
    | cons c rest => simpa [tokensFrom] using ih rest

def tokens (t : Text) : Except Fault (List Text) := tokensFrom t (.skip 0) t

def operand (read : Form → Text → Reading) (token : Text) : Reading :=
  if token.head? = some '{' then read .polish (inner token)
  else if token.head? = some '(' then read .enclosed token
  else read .chain token

def operate (whole : Text) (op : Operator) : List UInt32 → Except Obstacle (List UInt32)
  | right :: left :: rest =>
    match op.apply left right with
    | some word => .ok (word :: rest)
    | none => .error (.fault .divisionByZero)
  | _ => .error (.fault (.missingValue (Text.trim whole)))

def step (read : Form → Text → Reading) (whole : Text) (stack : List UInt32) (token : Text) :
    Except Obstacle (List UInt32) :=
  match Operator.ofText? token with
  | some op => operate whole op stack
  | none => (operand read token).map (· :: stack)

def result (whole : Text) : List UInt32 → Reading
  | [] => .error (.fault (.missingOperand (Text.trim whole)))
  | [word] => .ok word
  | _ => .error (.fault (.extraValues (Text.trim whole)))

def eval (read : Form → Text → Reading) (whole : Text) : Reading :=
  match tokens whole with
  | .error cause => .error (.fault cause)
  | .ok tokens => do result whole (← tokens.foldlM (step read whole) [])

end Assembler65816.Expression.Polish
