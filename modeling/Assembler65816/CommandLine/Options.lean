import Assembler65816.CommandLine.Arguments
import Assembler65816.Config
import Assembler65816.Expression.Eval
import Assembler65816.Image.Format

/-! # Options

The arguments once they make sense together. Sizes and addresses are expressions without symbols.
-/

namespace Assembler65816.CommandLine

structure Options where
  input : String
  output : String
  format : Format
  symbols : Option String
  config : Config
  deriving DecidableEq, Repr

inductive OptionError where
  | noInput
  | badNumber (what : String) (detail : String)
  | emptyRom
  | romTooLarge
  | badFill
  | tooFewPasses
  deriving DecidableEq, Repr

def OptionError.problem : OptionError → Problem
  | .noInput => ⟨.commandLine, "No input file specified. Use -a/--asm or give FILE"⟩
  | .badNumber what detail => Problem.about .commandLine ("Invalid " ++ what) (some detail)
  | .emptyRom => ⟨.commandLine, "ROM size must be greater than zero"⟩
  | .romTooLarge => ⟨.commandLine, "ROM size exceeds the 24-bit address space"⟩
  | .badFill => ⟨.commandLine, "Invalid -f/--fill byte; must be 2 hex digits"⟩
  | .tooFewPasses => ⟨.commandLine, "--max-passes must be at least 2"⟩

namespace Arguments

def number (what : String) (t : Text) : Except OptionError UInt32 :=
  match Expression.eval ⟨fun _ => none, none⟩ t with
  | .ok word => .ok word
  | .error (.fault cause) => .error (.badNumber what cause.problem.message)
  | .error _ => .error (.badNumber what (String.ofList t))

def romSize (a : Arguments) : Except OptionError UInt32 := do
  let size ← match a.get? .romSize with
    | some t => number "ROM size" t
    | none => .ok ({} : Config).romSize
  if size = 0 then .error .emptyRom
  else if 0x1000000 < size then .error .romTooLarge
  else .ok size

def romBase (a : Arguments) : Except OptionError (Option UInt32) :=
  match a.get? .romBase with
  | some t => (number "ROM base" t).map some
  | none => .ok none

def fill (a : Arguments) : Except OptionError UInt8 :=
  match a.get? .fill with
  | none => .ok 0
  | some [high, low] =>
    match Numeral.digit? 16 high, Numeral.digit? 16 low with
    | some high, some low => .ok (UInt8.ofNat (16 * high + low))
    | _, _ => .error .badFill
  | some _ => .error .badFill

def maxPasses (a : Arguments) : Except OptionError UInt32 :=
  let passes := ((a.get? .maxPasses).bind count?).getD ({} : Config).maxPasses
  if passes < 2 then .error .tooFewPasses else .ok passes

def format (a : Arguments) : Format :=
  if a.has .intelHex then .intelHex else if a.has .addressed then .addressed else .raw

end Arguments

def Options.ofArguments (a : Arguments) : Except OptionError Options := do
  match a.get? .source <|> a.get? .input with
  | none => .error .noInput
  | some input =>
    let romSize ← a.romSize
    let romBase ← a.romBase
    let fill ← a.fill
    let maxPasses ← a.maxPasses
    return {
      input := String.ofList input
      output := ((a.get? .output).map String.ofList).getD "output.bin"
      format := a.format
      symbols := (a.get? .symbols).map String.ofList
      config := {
        romSize, romBase, fill, maxPasses
        quietInfo := a.has .quietInfo
        quietWarnings := a.has .quietWarnings } }

end Assembler65816.CommandLine
