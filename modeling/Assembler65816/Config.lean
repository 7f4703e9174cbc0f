import Assembler65816.Fault

/-! # Settings of an assembly -/

namespace Assembler65816

structure Config where
  romSize : UInt32 := 0x8000
  /-- Fixed base of the ROM. Without one the first origin of a pass sets it. -/
  romBase : Option UInt32 := none
  fill : UInt8 := 0
  maxPasses : UInt32 := 7
  resolveBudget : UInt32 := 7
  quietInfo : Bool := false
  quietWarnings : Bool := false
  deriving DecidableEq, Repr

namespace Config

inductive Error where
  | emptyRom
  | tooFewPasses
  deriving DecidableEq, Repr

def Error.problem : Error → Problem
  | .emptyRom => ⟨.commandLine, "ROM size must be greater than zero"⟩
  | .tooFewPasses => ⟨.commandLine, "At least two passes are required"⟩

def validate (c : Config) : Except Error Unit :=
  if c.romSize = 0 then .error .emptyRom
  else if c.maxPasses < 2 then .error .tooFewPasses
  else .ok ()

def infoEnabled (c : Config) (pass : Nat) : Bool := !(c.quietInfo && pass == 1)

def warnEnabled (c : Config) (pass : Nat) : Bool := !(c.quietWarnings && pass == 1)

end Config

end Assembler65816
