import Assembler65816.Cpu.Mode
import Assembler65816.Expression.Eval

/-! # Traces

What evaluating the parts of a line leaves behind, whether or not the line succeeds: names that
were looked up in vain, cautions, the request for another pass, and the operand width remembered
for the line.
-/

namespace Assembler65816

inductive Caution where
  | doubtfulIndirect (mnemonic operand : Text)
  | guessedWidth (width : Width)
  | wideImmediate (value : UInt32) (wide : Bool)
  | bankRange (bank : UInt32)
  | dataRange (value limit : UInt32)
  deriving DecidableEq, Repr

namespace Caution

def kind : Caution → Kind
  | .doubtfulIndirect _ _ => .addressingMode
  | .guessedWidth _ => .unknownSymbol
  | .wideImmediate _ _ | .bankRange _ => .instruction
  | .dataRange _ _ => .directive

def message : Caution → String
  | .doubtfulIndirect mnemonic operand =>
    "Potentially invalid addressing mode: " ++ String.ofList (mnemonic ++ ' ' :: operand)
  | .guessedWidth width =>
    "Forward reference or unresolved symbol, defaulting to " ++ width.describe ++ " addressing"
  | .wideImmediate value false =>
    "Value " ++ renderWord value ++ " is > 0xff with 8 bit register"
  | .wideImmediate value true =>
    "Value " ++ renderWord value ++ " is > 0xffff with 16 bit register"
  | .bankRange bank => "Bank " ++ renderWord bank ++ " outside range [0..0xff]"
  | .dataRange value limit =>
    "Value " ++ renderWord value ++ " outside range [0.." ++ renderWord limit ++ "]"

def problem (c : Caution) : Problem := ⟨c.kind, c.message⟩

end Caution

inductive Note where
  | missed (name : Text)
  | caution (about : Caution)
  deriving DecidableEq, Repr

structure Trace where
  deferred : Bool := false
  notes : List Note := []
  hint : Option Width := none
  deriving DecidableEq, Repr

namespace Trace

def missed (t : Trace) : List Text :=
  t.notes.filterMap fun
    | .missed name => some name
    | .caution _ => none

def cautions (t : Trace) : List Caution :=
  t.notes.filterMap fun
    | .missed _ => none
    | .caution about => some about

def add (note : Note) (t : Trace) : Trace := { t with notes := t.notes ++ [note] }

end Trace

/-- Computations that leave a trace and may end in a fault. The trace survives the fault. -/
abbrev Tracing := ExceptT Fault (StateM Trace)

namespace Tracing

def caution (about : Caution) : Tracing Unit := modify (Trace.add (.caution about))

def remember (width : Width) : Tracing Unit := modify fun t => { t with hint := some width }

def defer : Tracing Unit := modify fun t => { t with deferred := true }

def miss (name : Text) : Tracing Unit :=
  modify fun t => { t.add (.missed name) with deferred := true }

/-- What the reading of an expression leaves behind once it is known as a whole. -/
def ofReading : Expression.Reading → Tracing Value
  | .ok word => pure (.known word)
  | .error (.fault cause) => throw cause
  | .error (.missing name) => do
    miss name
    pure .unresolved
  | .error .pending => do
    defer
    pure .unresolved

end Tracing

end Assembler65816
