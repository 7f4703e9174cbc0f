import Assembler65816.Assembly.Notice
import Assembler65816.Config
import Assembler65816.Cpu.Encode
import Assembler65816.Diagnostic
import Assembler65816.Image.Basic

/-! # Work in progress

The state that the lines of a pass change, and the steps on it that can end a run. Symbols, image
and widths remembered for lines outlive a pass; the rest starts afresh with each one.
-/

namespace Assembler65816

structure ForwardRef where
  name : Text
  place : SourceLine
  deriving DecidableEq, Repr

structure Work where
  pass : Nat := 0
  symbols : SymbolTable := {}
  image : Image
  counter : Option UInt32 := none
  widths : RegisterWidths := {}
  /-- Operand width remembered for the line at hand. -/
  hint : Option Width := none
  /-- Whether something in this pass asks for another one. -/
  unsettled : Bool := false
  forward : List ForwardRef := []
  /-- Values bound by definitions of this pass, the latest first. -/
  defined : List (Text × Value) := []
  warnings : List Diagnostic := []
  log : Array Notice := #[]
  deriving DecidableEq, Repr

inductive Halt where
  | fault (cause : Fault)
  | overrun
  deriving DecidableEq, Repr

def SourceLine.diagnostic (place : SourceLine) (severity : Severity) (problem : Problem) :
    Diagnostic :=
  ⟨place.number, severity, problem, some place.file, some (String.ofList place.raw)⟩

namespace Work

def report (notice : Notice) (w : Work) : Work := { w with log := w.log.push notice }

def reportIf (enabled : Bool) (notice : Notice) (w : Work) : Work :=
  if enabled then w.report notice else w

def env (w : Work) : Env := w.symbols.env w.counter

def takeNote (config : Config) (place : SourceLine) (w : Work) : Note → Work
  | .missed name =>
    let w := w.reportIf (config.infoEnabled w.pass) (.unknownSymbol name place)
    { w with forward := w.forward ++ [⟨name, place⟩] }
  | .caution about =>
    let w := w.reportIf (config.warnEnabled w.pass) (.caution about place)
    { w with warnings := w.warnings ++ [place.diagnostic .warning about.problem] }

def takeTrace (config : Config) (place : SourceLine) (trace : Trace) (w : Work) : Work :=
  trace.notes.foldl (takeNote config place)
    { w with unsettled := w.unsettled || trace.deferred, hint := trace.hint }

end Work

abbrev Step := ExceptT Halt (StateM Work)

namespace Step

def fault {α : Type} (cause : Fault) : Step α := throw (.fault cause)

def report (notice : Notice) : Step Unit := modify (Work.report notice)

def traced {α : Type} (config : Config) (place : SourceLine) (body : Tracing α) : Step α := do
  let w ← get
  let (result, trace) := body.run { hint := w.hint }
  set (w.takeTrace config place trace)
  match result with
  | .ok value => pure value
  | .error cause => fault cause

def eval (config : Config) (place : SourceLine) (expression : Text) : Step Value := do
  traced config place (Tracing.eval (← get).env expression)

end Step

end Assembler65816
