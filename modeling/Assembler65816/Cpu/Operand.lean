import Assembler65816.Cpu.Mode
import Assembler65816.Text.Quote

/-! # Operands

The form of an operand is read off its first character and the end of its text. The end is matched
loosely: ASCII case and ASCII blanks between its characters do not matter.
-/

namespace Assembler65816

inductive Operand where
  | empty
  | immediate (expression : Text)
  | address (shape : Shape) (expression : Text)
  | blockMove (source destination : Text)
  /-- Starts like an indirect operand but does not end like one. -/
  | openIndirect (text : Text)
  | openIndirectLong (text : Text)
  deriving DecidableEq, Repr

namespace Operand

/-- Removes `ending` from the front of `t`; both run backwards. -/
def stripBackwards : Text → Text → Option Text
  | t, [] => some t
  | t, want :: more =>
    match t.dropWhile isAsciiBlank with
    | [] => none
    | c :: rest => if c.toLower == want.toLower then stripBackwards rest more else none

def stripEnding (t ending : Text) : Option Text :=
  (stripBackwards t.reverse ending.reverse).map List.reverse

def byEnding (t : Text) : List (Text × Shape) → Option Operand
  | [] => none
  | (ending, shape) :: more =>
    match stripEnding t ending with
    | some front => some (.address shape (Text.trim front))
    | none => byEnding t more

def indirectEndings : List (Text × Shape) :=
  [([',', 'x', ')'], .indexedIndirect), ([',', 's', ')', ',', 'y'], .stackIndirectY),
   ([')', ',', 'y'], .indirectY), ([')'], .indirect)]

def indirectLongEndings : List (Text × Shape) :=
  [([']', ',', 'y'], .indirectLongY), ([']'], .indirectLong)]

def indexEndings : List (Text × Shape) :=
  [([',', 'y'], .indexedY), ([',', 'x'], .indexedX), ([',', 's'], .stack)]

/-- Splits at the first comma outside quotes and brackets. A quote ends at the next mark of its
kind, with no escapes. -/
def splitComma : Option Char → Int → Text → Option (Text × Text)
  | _, _, [] => none
  | some mark, depth, c :: rest =>
    (splitComma (if c == mark then none else some mark) depth rest).map
      (fun (front, back) => (c :: front, back))
  | none, depth, c :: rest =>
    if c == ',' && depth == 0 then some ([], rest)
    else
      let quote := if isQuoteMark c then some c else none
      let depth :=
        if c == '(' || c == '[' || c == '{' then depth + 1
        else if c == ')' || c == ']' || c == '}' then depth - 1
        else depth
      (splitComma quote depth rest).map (fun (front, back) => (c :: front, back))

def classifyDirect (t : Text) : Operand :=
  match byEnding t indexEndings with
  | some operand => operand
  | none =>
    match splitComma none 0 t with
    | some (source, destination) => .blockMove (Text.trim source) (Text.trim destination)
    | none => .address .plain t

def classify (t : Text) : Operand :=
  match Text.trim t with
  | [] => .empty
  | '#' :: rest => .immediate (Text.trim rest)
  | '(' :: rest => (byEnding rest indirectEndings).getD (.openIndirect ('(' :: rest))
  | '[' :: rest => (byEnding rest indirectLongEndings).getD (.openIndirectLong ('[' :: rest))
  | text => classifyDirect text

end Operand

end Assembler65816
