import Assembler65816.Assembly.Execute
import Assembler65816.Assembly.Sweep

/-! # Running an assembly

The lines are carried out in order, pass after pass, until a pass ends with every symbol known and
nothing asking for another pass, or the passes are used up. After the first pass a sweep settles
the equates that waited on later definitions. An assembly can be run again: its symbols and the
widths remembered for its lines stay.
-/

namespace Assembler65816

structure Record where
  source : SourceLine
  hint : Option Width := none
  deriving DecidableEq, Repr

inductive Stage where
  | idle
  | done
  | failed
  deriving DecidableEq, Repr

structure Assembly where
  config : Config
  records : List Record
  work : Work
  stage : Stage := .idle
  deriving DecidableEq, Repr

inductive Ending where
  | done
  | failed (failure : Failure)
  /-- An address or the number of a pass left its range; no report describes it. -/
  | crashed
  deriving DecidableEq, Repr

def Halt.ending (place : SourceLine) : Halt → Ending
  | .fault cause => .failed ⟨cause.problem, [place.diagnostic .error cause.problem]⟩
  | .overrun => .crashed

namespace Work

def startPass (config : Config) (pass : Nat) (w : Work) : Work :=
  { w with
    pass
    image := w.image.clear
    counter := none
    widths := {}
    hint := none
    unsettled := false
    forward := []
    defined := []
    warnings := [] }.reportIf (config.infoEnabled pass) (.passStarted pass)

/-- Carries out the lines in order, up to the first that does not get done. -/
def runLines (config : Config) : List Record → Work → Option Ending × List Record × Work
  | [], w => (none, [], w)
  | r :: rest, w =>
    match (Step.runLine config r.source).run { w with hint := r.hint } with
    | (.error halt, w) =>
      (some (halt.ending r.source), { r with hint := w.hint } :: rest, w)
    | (.ok (), w) =>
      let carriedOut : Record := { r with hint := w.hint }
      let (ending, rest, w) := runLines config rest w
      (ending, carriedOut :: rest, w)

def finishPass (w : Work) : Work :=
  w.report (.passDone w.pass w.symbols.resolvedCount w.symbols.unresolvedCount w.unsettled)

def settled (w : Work) : Bool :=
  2 ≤ w.pass && !w.unsettled && w.symbols.unresolvedCount == 0

/-- The failure when the passes are used up: the first name of the last pass that is nowhere
defined, else the first symbol without a value, else that values kept moving. -/
def exhaustion (config : Config) (w : Work) : Failure :=
  match w.forward, w.symbols.unresolvedNames with
  | ref :: _, _ =>
    let problem := (Fault.unresolvedSymbol ref.name).problem
    ⟨problem, [ref.place.diagnostic .error problem]⟩
  | [], name :: _ => ⟨(Fault.unresolvedSymbol name).problem, []⟩
  | [], [] => ⟨(Fault.noConvergence config.maxPasses.toNat).problem, []⟩

end Work

namespace Assembly

def new (config : Config) (lines : List SourceLine) : Assembly :=
  { config
    records := lines.map fun source => { source }
    work := { image := Image.new (config.romBase.getD 0) config.romSize config.fill } }

/-- Runs one pass, and the sweep after the first. Answers how the run ends if it ends here. -/
def runPass (pass : Nat) (a : Assembly) : Option Ending × Assembly :=
  match a.work.startPass a.config pass |>.runLines a.config a.records with
  | (some ending, records, work) => (some ending, { a with records, work, stage := .failed })
  | (none, records, work) =>
    if pass = 1 then
      match work.finishPass.sweep a.config.resolveBudget.toNat 1 with
      | (some cause, work) => (some (.failed ⟨cause.problem, []⟩), { a with records, work, stage := .failed })
      | (none, work) => (none, { a with records, work })
    else (none, { a with records, work := work.finishPass })

/-- The end of a run that used up its passes. The number of a pass is a word, so there is no pass
after the greatest one. -/
def giveUp (a : Assembly) : Ending × Assembly :=
  if a.config.maxPasses.toNat + 1 = UInt32.size then (.crashed, a)
  else
    let work := a.work.retryAll.report (.budgetExhausted a.config.maxPasses.toNat)
    let work := (Notice.ofTable work.symbols).foldl (fun w notice => w.report notice) work
    (.failed (work.exhaustion a.config), { a with work, stage := .failed })

def runPasses : Nat → Nat → Assembly → Ending × Assembly
  | 0, _, a => a.giveUp
  | left + 1, pass, a =>
    match a.runPass pass with
    | (some ending, a) => (ending, a)
    | (none, a) =>
      if a.work.settled then
        let work := a.work.reportIf (a.config.infoEnabled pass)
          (.complete pass a.work.image.base a.work.image.limit)
        (.done, { a with work, stage := .done })
      else runPasses left (pass + 1) a

def run (a : Assembly) : Ending × Assembly :=
  let a := { a with work.log := #[] }
  match a.config.validate with
  | .error cause => (.failed ⟨cause.problem, []⟩, a)
  | .ok () => a.runPasses a.config.maxPasses.toNat 1

end Assembly

def assemble (config : Config) (file : String) (text : Text) : Ending × Assembly :=
  (Assembly.new config (SourceLine.ofText file text)).run

end Assembler65816
