import Assembler65816.Text.Basic

/-! # Operators

Ten binary operators on 32-bit words. Sums, differences and products wrap, a shift by the word
size or more leaves zero, and dividing by zero has no result. A selector picks one of the low
three bytes of a word.
-/

namespace Assembler65816.Expression

inductive Operator where
  | add
  | sub
  | mul
  | div
  | mod
  | shiftLeft
  | shiftRight
  | or
  | and
  | xor
  deriving DecidableEq, Repr

namespace Operator

def ofText? : Text → Option Operator
  | ['+'] => some .add
  | ['-'] => some .sub
  | ['*'] => some .mul
  | ['/'] => some .div
  | ['%'] => some .mod
  | ['<', '<'] => some .shiftLeft
  | ['>', '>'] => some .shiftRight
  | ['|'] => some .or
  | ['&'] => some .and
  | ['^'] => some .xor
  | _ => none

def apply : Operator → UInt32 → UInt32 → Option UInt32
  | .add, a, b => some (a + b)
  | .sub, a, b => some (a - b)
  | .mul, a, b => some (a * b)
  | .div, a, b => if b = 0 then none else some (a / b)
  | .mod, a, b => if b = 0 then none else some (a % b)
  | .shiftLeft, a, b => some (if b < 32 then a <<< b else 0)
  | .shiftRight, a, b => some (if b < 32 then a >>> b else 0)
  | .or, a, b => some (a ||| b)
  | .and, a, b => some (a &&& b)
  | .xor, a, b => some (a ^^^ b)

end Operator

inductive Selector where
  | low
  | high
  | bank
  deriving DecidableEq, Repr

namespace Selector

def ofChar? : Char → Option Selector
  | '<' => some .low
  | '>' => some .high
  | '^' => some .bank
  | _ => none

def select : Selector → UInt32 → UInt32
  | .low, word => word &&& 0xFF
  | .high, word => (word >>> 8) &&& 0xFF
  | .bank, word => (word >>> 16) &&& 0xFF

end Selector

end Assembler65816.Expression
