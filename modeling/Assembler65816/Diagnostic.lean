import Assembler65816.Fault

/-! # Diagnostics

A diagnostic is a problem at a place in the source. A failure is the problem that ended a run,
with the diagnostics that locate it.
-/

namespace Assembler65816

inductive Severity where
  | warning
  | error
  deriving DecidableEq, Repr

def Severity.label : Severity → String
  | .warning => "WARNING"
  | .error => "ERROR"

structure Diagnostic where
  line : Nat
  severity : Severity
  problem : Problem
  file : Option String := none
  source : Option String := none
  deriving DecidableEq, Repr

namespace Diagnostic

def brief (d : Diagnostic) : String :=
  Nat.repr d.line ++ ": " ++ d.severity.label ++ " - " ++ d.problem.render

def contextLine (line : Nat) (source : Option String) : String :=
  let number := Nat.repr line
  String.ofList (List.replicate (5 - number.length) ' ') ++ number ++ " | " ++
    source.getD "<source unavailable>"

def inContext (d : Diagnostic) : String :=
  let place := match d.file with
    | some file => file ++ ":" ++ Nat.repr d.line
    | none => Nat.repr d.line
  place ++ ": " ++ d.severity.label ++ "\n" ++ contextLine d.line d.source ++ "\n" ++
    d.severity.label ++ ": " ++ d.problem.render

end Diagnostic

/-- The problem that ended a run. -/
structure Failure where
  problem : Problem
  diagnostics : List Diagnostic := []
  deriving DecidableEq, Repr

end Assembler65816
