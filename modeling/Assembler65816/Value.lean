import Assembler65816.Text.Basic

/-! # Values

Every value is a 32-bit word. A symbol or an operand whose word is not known yet is unresolved.
-/

namespace Assembler65816

inductive Value where
  | known (word : UInt32)
  | unresolved
  deriving DecidableEq, Repr, Inhabited

namespace Value

def known? : Value → Option UInt32
  | .known word => some word
  | .unresolved => none

def isKnown (v : Value) : Bool := v.known?.isSome

def ofOption : Option UInt32 → Value
  | some word => .known word
  | none => .unresolved

def map (f : UInt32 → UInt32) : Value → Value
  | .known word => .known (f word)
  | .unresolved => .unresolved

def getD : Value → UInt32 → UInt32
  | .known word, _ => word
  | .unresolved, placeholder => placeholder

end Value

/-- What an expression may refer to: the symbols defined so far and the location counter. -/
structure Env where
  lookup : Text → Option Value
  address : Option UInt32

def littleEndian (word : UInt32) : Nat → List UInt8
  | 0 => []
  | count + 1 => word.toUInt8 :: littleEndian (word >>> 8) count

@[simp] theorem length_littleEndian (word : UInt32) (count : Nat) :
    (littleEndian word count).length = count := by
  induction count generalizing word with
  | zero => rfl
  | succ count ih => simp [littleEndian, ih]

end Assembler65816
