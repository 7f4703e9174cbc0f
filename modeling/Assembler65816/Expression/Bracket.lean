import Assembler65816.Text.Quote

/-! # Brackets

The end of a bracketed group: brackets of the group's own kind nest, quoted literals are passed
over whole, and brackets of another kind are ordinary characters.
-/

namespace Assembler65816.Expression

structure Brackets where
  opening : Char
  closing : Char
  deriving DecidableEq, Repr

def parentheses : Brackets := ⟨'(', ')'⟩

def braces : Brackets := ⟨'{', '}'⟩

def isBracket (c : Char) : Bool := c == '(' || c == ')' || c == '{' || c == '}'

namespace Brackets

/-- How many characters it takes, from a place where `depth` brackets are open, to close them all.
There is no answer when the text ends first. -/
def span (b : Brackets) : Nat → Quote → Text → Option Nat
  | _, _, [] => none
  | depth, .outside, c :: rest =>
    if isQuoteMark c then (span b depth (.inside c) rest).map (· + 1)
    else if c == b.opening then (span b (depth + 1) .outside rest).map (· + 1)
    else if c == b.closing then
      if depth ≤ 1 then some 1 else (span b (depth - 1) .outside rest).map (· + 1)
    else (span b depth .outside rest).map (· + 1)
  | depth, q, c :: rest => (span b depth (q.step c) rest).map (· + 1)

def groupLength (b : Brackets) (t : Text) : Option Nat := b.span 0 .outside t

end Brackets

def inner (group : Text) : Text := group.tail.dropLast

end Assembler65816.Expression
