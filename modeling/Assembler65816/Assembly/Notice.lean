import Assembler65816.SymbolTable
import Assembler65816.Trace
import Assembler65816.Source.Line

/-! # Notices

The messages an assembly reports while it runs, each with its level.
-/

namespace Assembler65816

inductive Level where
  | debug
  | info
  | warn
  | error
  deriving DecidableEq, Repr

namespace Level

def rank : Level → Nat
  | .debug => 0
  | .info => 1
  | .warn => 2
  | .error => 3

def label : Level → String
  | .debug => "DEBUG"
  | .info => "INFO"
  | .warn => "WARN"
  | .error => "ERROR"

end Level

inductive Notice where
  | passStarted (pass : Nat)
  | passDone (pass known pending : Nat) (another : Bool)
  | complete (pass : Nat) (base limit : UInt32)
  | label (name : Text) (address : UInt32)
  | equate (name : Text) (value : UInt32)
  | equateDeferred (name expression : Text)
  | moved (name : Text) (old new : UInt32) (line : Nat)
  | romBase (address : UInt32)
  | origin (address : UInt32)
  | unknownSymbol (name : Text) (place : SourceLine)
  | caution (about : Caution) (place : SourceLine)
  | waits (name missing : Text)
  | resolved (name : Text) (round : Nat)
  | sweepRound (round advanced pending : Nat)
  | budgetExhausted (passes : Nat)
  | symbolTable
  | symbol (listing : String)
  | wrote (bytes : Nat) (path : String) (passes : Nat)
  deriving DecidableEq, Repr

namespace Notice

def level : Notice → Level
  | .passStarted _ | .complete _ _ _ | .unknownSymbol _ _ | .symbolTable | .symbol _
  | .wrote _ _ _ => .info
  | .caution _ _ | .budgetExhausted _ => .warn
  | _ => .debug

def location (place : SourceLine) : String :=
  place.file ++ ":" ++ Nat.repr place.number ++ ": '" ++ String.ofList place.text ++ "'"

def message : Notice → String
  | .passStarted pass => "*** Starting pass #" ++ Nat.repr pass ++ " ***"
  | .passDone pass known pending another =>
    "Pass #" ++ Nat.repr pass ++ " done: " ++ Nat.repr known ++ " resolved, " ++
      Nat.repr pending ++ " unresolved, another pass: " ++ (if another then "true" else "false")
  | .complete pass base limit =>
    "Assembly complete after " ++ Nat.repr pass ++ " passes, ROM " ++ renderWindow base limit
  | .label name address => "Label " ++ String.ofList name ++ " = " ++ renderAddress address
  | .equate name value => "Equate " ++ String.ofList name ++ " = " ++ renderWord value
  | .equateDeferred name expression =>
    "Equate " ++ String.ofList name ++ " deferred: " ++ String.ofList expression
  | .moved name old new line =>
    String.ofList name ++ " moved from " ++ renderWord old ++ " to " ++ renderWord new ++
      " on line " ++ Nat.repr line
  | .romBase address => "ROM base set to " ++ renderAddress address
  | .origin address => "ORG " ++ renderAddress address
  | .unknownSymbol name place =>
    "Unknown symbol '" ++ String.ofList name ++ "', going for another pass ... " ++ location place
  | .caution about place => about.message ++ " " ++ location place
  | .waits name missing =>
    String.ofList name ++ " waits on undefined [\"" ++ String.ofList missing ++ "\"]"
  | .resolved name round =>
    "Resolved " ++ String.ofList name ++ " in sweep round " ++ Nat.repr round
  | .sweepRound round advanced pending =>
    "Resolver round " ++ Nat.repr round ++ ": " ++ Nat.repr advanced ++ " resolved, " ++
      Nat.repr pending ++ " pending"
  | .budgetExhausted passes =>
    "Pass budget of " ++ Nat.repr passes ++ " exhausted, symbol table follows"
  | .symbolTable => "Symbol table:"
  | .symbol listing => listing
  | .wrote bytes path passes =>
    "Wrote " ++ Nat.repr bytes ++ " bytes to " ++ path ++ " after " ++ Nat.repr passes ++ " passes"

def ofTable (t : SymbolTable) : List Notice := .symbolTable :: t.listing.map .symbol

end Notice

end Assembler65816
