import Assembler65816.Text.Numeral
import Assembler65816.Value

/-! # Faults

`Fault` lists the causes for which a line or an expression is refused. Each cause belongs to a
`Kind` and has one wording. `Problem` is a cause once worded, as reports carry it.
-/

namespace Assembler65816

inductive Kind where
  | malformed
  | unterminated
  | trailingOperands
  | unknownSymbol
  | duplicateSymbol
  | addressingMode
  | branchRange
  | romBounds
  | passBudget
  | directive
  | instruction
  | io
  | commandLine
  deriving DecidableEq, Repr

def Kind.label : Kind → String
  | .malformed => "SyntaxError"
  | .unterminated => "UnterminatedExpression"
  | .trailingOperands => "TrailingOperands"
  | .unknownSymbol => "UnknownSymbol"
  | .duplicateSymbol => "DuplicateSymbol"
  | .addressingMode => "InvalidAddressingMode"
  | .branchRange => "BranchOutOfRange"
  | .romBounds => "RomBoundsViolation"
  | .passBudget => "PassBudgetExceeded"
  | .directive => "DirectiveError"
  | .instruction => "InstructionError"
  | .io => "IoError"
  | .commandLine => "CliError"

structure Problem where
  kind : Kind
  message : String
  deriving DecidableEq, Repr

namespace Problem

def about (kind : Kind) (message : String) (detail : Option String) : Problem :=
  match detail with
  | some detail => ⟨kind, message ++ ": " ++ detail⟩
  | none => ⟨kind, message⟩

def render (p : Problem) : String := p.kind.label ++ ": " ++ p.message

end Problem

def renderAddress (address : UInt32) : String := "$" ++ Numeral.hexPadded 6 address.toNat

def renderWindow (base limit : UInt32) : String := renderAddress base ++ ".." ++ renderAddress limit

def renderWord (word : UInt32) : String := "$" ++ Numeral.hex word.toNat

inductive Fault where
  | divisionByZero
  | openQuote (text : Text)
  | textAfterGroup (term : Text)
  | badNumber (text : Text)
  | nothingToRead
  | missingOperand (text : Text)
  | missingValue (text : Text)
  | counterUnset (text : Text)
  | unterminated (text : Text)
  | extraValues (text : Text)
  | unexpectedText (rest : Text)
  | openString (item : Text)
  | unresolvedSymbol (name : Text)
  | duplicateSymbol (name : Text)
  | addressingMode (mnemonic operand : Text)
  | addressRange (value : UInt32)
  | branchRange (offset : Int) (source : UInt32)
  | outsideRom (address base limit : UInt32)
  | originOutsideRom (address base limit : UInt32)
  | dataBeforeOrigin
  | noConvergence (passes : Nat)
  | instructionBeforeOrigin
  | equateWithoutName
  | labelBeforeOrigin (name : Text)
  | unknownOrigin (expression : Text)
  | noData
  | unknownInstruction (mnemonic : Text)
  | unknownWord (word : Text)
  deriving DecidableEq, Repr

namespace Fault

def kind : Fault → Kind
  | divisionByZero | openQuote _ | textAfterGroup _ | badNumber _ | nothingToRead
  | missingOperand _ | missingValue _ | counterUnset _ | unexpectedText _ | openString _ =>
    .malformed
  | unterminated _ => .unterminated
  | extraValues _ => .trailingOperands
  | unresolvedSymbol _ => .unknownSymbol
  | duplicateSymbol _ => .duplicateSymbol
  | addressingMode _ _ | addressRange _ => .addressingMode
  | branchRange _ _ => .branchRange
  | outsideRom _ _ _ | originOutsideRom _ _ _ | dataBeforeOrigin => .romBounds
  | noConvergence _ => .passBudget
  | instructionBeforeOrigin | equateWithoutName | labelBeforeOrigin _ | unknownOrigin _
  | noData => .directive
  | unknownInstruction _ | unknownWord _ => .instruction

def headline : Fault → String
  | divisionByZero => "Division by zero"
  | openQuote _ => "Expression missing closing character"
  | textAfterGroup _ => "Unexpected text after sub-expression"
  | badNumber _ => "Invalid number format"
  | nothingToRead | missingOperand _ => "Expected operand"
  | missingValue _ => "Missing value or extra operation"
  | counterUnset _ => "Location counter is not set"
  | unterminated _ => "Expression missing terminating character"
  | extraValues _ => "Extra values in expression"
  | unexpectedText _ => "Unexpected text"
  | openString _ => "String missing closing quote"
  | unresolvedSymbol _ => "Unresolved symbol"
  | duplicateSymbol _ => "Symbol defined with a different value"
  | addressingMode _ _ => "Invalid addressing mode"
  | addressRange _ => "Address out of 24-bit range"
  | branchRange _ _ => "Branch out of range"
  | outsideRom _ _ _ => "Data placed outside of ROM area"
  | originOutsideRom _ _ _ => "ORG directive outside of ROM area"
  | dataBeforeOrigin => "Data placed before ORG"
  | noConvergence _ => "Assembly did not converge"
  | instructionBeforeOrigin => "Instruction before ORG"
  | equateWithoutName => "EQU requires a symbol name"
  | labelBeforeOrigin _ => "Label defined before ORG"
  | unknownOrigin _ => "ORG address must be known when the line is reached"
  | noData => "Expected data values"
  | unknownInstruction _ => "Unknown instruction"
  | unknownWord _ => "Unknown instruction or directive"

def detail : Fault → Option String
  | divisionByZero | nothingToRead | dataBeforeOrigin | instructionBeforeOrigin
  | equateWithoutName | noData => none
  | openQuote text | textAfterGroup text | badNumber text | missingOperand text
  | missingValue text | counterUnset text | unterminated text | extraValues text
  | unexpectedText text | openString text | unresolvedSymbol text | duplicateSymbol text
  | labelBeforeOrigin text | unknownOrigin text | unknownInstruction text | unknownWord text =>
    some (String.ofList text)
  | addressingMode mnemonic operand =>
    some (String.ofList (Text.trimEnd (mnemonic ++ [' '] ++ operand)))
  | addressRange value => some (renderWord value)
  | branchRange offset source =>
    some ((if offset < 0 then "-" else "+") ++ "0x" ++ Numeral.hex offset.natAbs ++ " from " ++
      renderAddress source)
  | outsideRom address base limit | originOutsideRom address base limit =>
    some (renderAddress address ++ " not in " ++ renderWindow base limit)
  | noConvergence passes => some (Nat.repr passes ++ " passes")

def problem (f : Fault) : Problem := Problem.about f.kind f.headline f.detail

end Fault

end Assembler65816
