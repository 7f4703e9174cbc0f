import Assembler65816.Assembly.Work
import Assembler65816.Source.Statement
import Assembler65816.Text.DataList

/-! # Carrying out lines

Definitions enter the symbol table, origins move the location counter, and instructions and data
go into the image at the location counter. Two definitions of a name within one pass must agree.
-/

namespace Assembler65816.Step

def emit (bytes : List UInt8) : Step Unit := do
  let w ← get
  match w.counter with
  | none => fault .dataBeforeOrigin
  | some pc =>
    match w.image.locate pc bytes with
    | .error (.outside address) => fault (w.image.outsideFault address)
    | .error .overrun => throw .overrun
    | .ok start =>
      modify fun w =>
        { w with
          image := w.image.overwrite start bytes
          counter := some (pc + UInt32.ofNat bytes.length) }

def contradicts (earlier : Option Value) (value : Value) : Bool :=
  match earlier, value with
  | some (.known old), .known new => old != new
  | _, _ => false

/-- Binds a name on the line at hand. On later passes a value that moved asks for another pass. -/
def define (place : SourceLine) (name : Text) (value : Value) (expression : Text) :
    Step Unit := do
  let w ← get
  let earlier := w.defined.lookup name
  if contradicts earlier value then fault (.duplicateSymbol name)
  let defined :=
    if value.isKnown || earlier.isNone then (name, value) :: w.defined else w.defined
  let previous := w.symbols.lookup name
  match w.symbols.define ⟨name, value, expression, w.counter⟩ (w.pass == 1) with
  | none => fault (.duplicateSymbol name)
  | some symbols =>
    set { w with symbols, defined }
    match previous, value with
    | some (.known old), .known new =>
      if w.pass != 1 && old != new then
        report (.moved name old new place.number)
        modify fun w => { w with unsettled := true }
    | _, _ => pure ()

def defineLabel (place : SourceLine) (name : Text) : Step Unit := do
  match (← get).counter with
  | none => fault (.labelBeforeOrigin name)
  | some pc =>
    report (.label name pc)
    define place name (.known pc) ['$']

def defineEquate (config : Config) (place : SourceLine) (name expression : Text) :
    Step Unit := do
  let value ← eval config place expression
  match value with
  | .known word => report (.equate name word)
  | .unresolved => report (.equateDeferred name expression)
  define place name value expression

/-- Moves the location counter. The first origin of a pass also moves the window, unless its base
is fixed; every other origin has to stay within the window or at its end. -/
def setOrigin (config : Config) (place : SourceLine) (expression : Text) : Step Unit := do
  match ← eval config place expression with
  | .unresolved => fault (.unknownOrigin expression)
  | .known address =>
    let w ← get
    if w.counter.isNone && config.romBase.isNone then
      if w.image.base != address then
        report (.romBase address)
        modify fun w => { w with image := w.image.rebase address }
    else if address < w.image.base || w.image.limit < address then
      fault (.originOutsideRom address w.image.base w.image.limit)
    report (.origin address)
    modify fun w => { w with counter := some address }

/-- The values of a data item: the code points of a string, or one expression. -/
def dataItem (env : Env) (item : Text) : Tracing (List UInt32) :=
  match item with
  | '"' :: rest =>
    match Text.dropLast? '"' rest with
    | some body => pure ((Escape.decode body).map Char.val)
    | none => throw (.openString item)
  | _ => do return [(← Tracing.eval env item).getD 0]

/-- The values of a data list. Each one beyond the limit is worth a caution. -/
def dataValues (env : Env) (size : DataSize) (items : List Text) : Tracing (List UInt32) := do
  let values := (← items.mapM (dataItem env)).flatten
  values.forM fun value => do
    if size.limit < value then Tracing.caution (.dataRange value size.limit)
  return values

def storeData (config : Config) (place : SourceLine) (size : DataSize) (list : Text) :
    Step Unit := do
  let items := DataList.items list
  if items.isEmpty then fault .noData
  let values ← traced config place (dataValues (← get).env size items)
  emit (values.flatMap (fun value => littleEndian value size.bytes))

def runInstruction (config : Config) (place : SourceLine) (mnemonic operand : Text) :
    Step Unit := do
  let w ← get
  emit (← traced config place (Instruction.encode ⟨w.env, w.widths⟩ mnemonic operand))

def runStatement (config : Config) (place : SourceLine) : Statement → Step Unit
  | .nothing | .rom => pure ()
  | .equate name expression => defineEquate config place name expression
  | .origin expression => setOrigin config place expression
  | .accumulatorWidth wide => modify fun w => { w with widths.accumulator16 := wide }
  | .indexWidth wide => modify fun w => { w with widths.index16 := wide }
  | .data size list => storeData config place size list
  | .instruction mnemonic operand => runInstruction config place mnemonic operand
  | .faulty cause => fault cause

/-- Carries out a line: its labels in order, then its statement. -/
def runLine (config : Config) (place : SourceLine) : Step Unit := do
  let line := ParsedLine.ofText place.text
  line.labels.forM (defineLabel place)
  runStatement config place line.statement

end Assembler65816.Step
